import NearFetch.Submissions

/-! # Retrying a transaction

Awaiting a `RetryableTransaction` runs `send_tx_once` again after every error.  An error does not say
that the transaction was rejected: the reply to an accepted one may be a timeout, a failed
connection or a response without an outcome, and then the next attempt signs and sends a second
transaction with the same actions.

A `Script` says how an endpoint behaves, attempt by attempt.  `scriptProtocol` counts the attempts
of a path and collects what they submit, as long as the replies are those of the script; whatever
other tasks do to the cache and to the rotation counter is left open.  The acceptances of the
submissions are then a list that the script determines (`flagsFrom`, `retryStart_script`), and
`retry_sentOnce_iff` says exactly for which scripts no transaction is sent after an accepted one. -/

namespace NearFetch

open Effects

/-- The reply of an endpoint, attempt by attempt: whether the query for the nonce or the block hash
succeeds, whether the submission is accepted, and the reply to it. -/
structure Script where
  query : ℕ → Bool
  accepts : ℕ → Bool
  reply : ℕ → SendReply

/-- The reply makes `send_tx_once` return an outcome. -/
def SendReply.settles : SendReply → Bool
  | .ok response => response.finalExecutionOutcome.isSome
  | .error _ => false

namespace Script

variable (sc : Script)

/-- Attempt `k` ends the retrying. -/
def settles (k : ℕ) : Bool := sc.query k && (sc.reply k).settles

/-- The acceptances of the submissions of attempt `k` and of at most `n` retries. -/
def flagsFrom : ℕ → ℕ → List Bool
  | 0, k => if sc.query k = true then [sc.accepts k] else []
  | n + 1, k => (if sc.query k = true then [sc.accepts k] else []) ++
      if sc.settles k = true then [] else flagsFrom n (k + 1)

end Script

/-- The attempt that a path is in, and what was submitted before it. -/
structure Attempts where
  attempt : ℕ
  submitted : List (SignedTransaction × Bool)

/-- The attempt failed before it submitted anything. -/
def Attempts.fail (st : Attempts) : Attempts := { st with attempt := st.attempt + 1 }

/-- The attempt submitted a transaction. -/
def Attempts.submit (st : Attempts) (stx : SignedTransaction) (accepted : Bool) : Attempts :=
  ⟨st.attempt + 1, st.submitted ++ [(stx, accepted)]⟩

section protocol

variable (sc : Script)

/-- The attempt's query was answered, with success or not; `none` when the script says otherwise. -/
def Attempts.answered (st : Attempts) (success : Bool) : Option Attempts :=
  match success, sc.query st.attempt with
  | true, true => some st
  | false, false => some st.fail
  | _, _ => none

/-- The attempts after an effect and its reply; `none` when the reply is not that of the script. -/
def Attempts.next : Option Attempts → (e : Op) → e.Reply → Option Attempts
  | some st, .rpc (.block _), reply => st.answered sc reply.isOk
  | some st, .rpc (.query _ _), reply => st.answered sc (reportedNonce reply).isSome
  | some st, .rpc (.sendTx stx _), reply =>
      if reply = sc.reply st.attempt then some (st.submit stx (sc.accepts st.attempt)) else none
  | st, _, _ => st

/-- The attempts of a path. -/
abbrev scriptProtocol : Protocol Op Op.Reply where
  State := Option Attempts
  next := Attempts.next sc
  allowed _ _ := True
  mayPanic _ := True

/-- The attempts of a path whose replies are those of the script. -/
def attempts (l : List (Act Op Op.Reply)) : Option Attempts :=
  (scriptProtocol sc).after (some ⟨0, []⟩) l

/-- A relation that has to hold only while the replies are those of the script. -/
def OnScript {α : Type} (Q : α → Attempts → Prop) (a : α) (m : Option Attempts) : Prop :=
  ∀ st, m = some st → Q a st

end protocol

section follows

variable (sc : Script) {α β : Type}

theorem follows_offScript {Q : α → Attempts → Prop} (p : Task α) :
    Follows (scriptProtocol sc) (OnScript Q) none p := by
  induction p with
  | pure a =>
      intro st hst
      cases hst
  | op e k ih =>
      refine ⟨trivial, fun r => ?_⟩
      have hnext : (scriptProtocol sc).next none e r = none := by
        cases e with
        | rpc call => cases call <;> rfl
        | _ => rfl
      rw [hnext]
      exact ih r
  | panic msg => trivial

/-- It is enough to show what holds on the script. -/
theorem follows_onScript {Q : α → Attempts → Prop} {m : Option Attempts} {p : Task α}
    (h : ∀ st, m = some st → Follows (scriptProtocol sc) (OnScript Q) (some st) p) :
    Follows (scriptProtocol sc) (OnScript Q) m p := by
  cases m with
  | none => exact follows_offScript sc p
  | some st => exact h st rfl

theorem rest_onScript {Q : α → Attempts → Prop} {Q' : β → Attempts → Prop} {f : α → Task β}
    (hf : ∀ a st, Q a st → Follows (scriptProtocol sc) (OnScript Q') (some st) (f a)) :
    ∀ a m, OnScript Q a m → Follows (scriptProtocol sc) (OnScript Q') m (f a) :=
  fun a _ hQ => follows_onScript sc fun st hst => hf a st (hQ st hst)

/-- What the query of an attempt decides. -/
def Queried (sc : Script) (st : Attempts) (result : Result α) (st' : Attempts) : Prop :=
  match result with
  | .ok _ => sc.query st.attempt = true ∧ st' = st
  | .error _ => sc.query st.attempt = false ∧ st' = st.fail

variable {sc} {st st' : Attempts}

theorem answered_ok (h : st.answered sc true = some st') (a : α) :
    Queried sc st (.ok a) st' := by
  unfold Attempts.answered at h
  cases hq : sc.query st.attempt with
  | true =>
      rw [hq] at h
      exact ⟨hq, (Option.some.inj h).symm⟩
  | false => simp [hq] at h

theorem answered_error (h : st.answered sc false = some st') (err : Error) :
    Queried sc st (.error err : Result α) st' := by
  unfold Attempts.answered at h
  cases hq : sc.query st.attempt with
  | true => simp [hq] at h
  | false =>
      rw [hq] at h
      exact ⟨hq, (Option.some.inj h).symm⟩

variable (sc) (st)

theorem Offline.script {p : Task α} (hp : Offline p) :
    Follows (scriptProtocol sc) (OnScript fun _ st' => st' = st) (some st) p := by
  have hfol : Follows (scriptProtocol sc) (fun _ m => m = some st) (some st) p := by
    refine Only.follows ?_ trivial hp
    intro e he
    cases e <;> first | exact ⟨trivial, fun _ => rfl⟩ | cases he
  apply hfol.mono
  rintro a m rfl st' hst
  exact (Option.some.inj hst).symm

theorem viewBlock_script :
    Follows (scriptProtocol sc) (OnScript (Queried sc st)) (some st) viewBlock := by
  refine ⟨trivial, fun reply => ?_⟩
  cases reply with
  | ok block => exact fun st' h => answered_ok h block
  | error err => exact fun st' h => answered_error h _

theorem accessKey_script (accountId : AccountId) (publicKey : PublicKey) :
    Follows (scriptProtocol sc) (OnScript (Queried sc st)) (some st)
      (accessKey accountId publicKey) := by
  refine ⟨trivial, fun reply => ?_⟩
  cases reply with
  | error err => exact fun st' h => answered_error h _
  | ok resp =>
      obtain ⟨kind, blockHash, blockHeight⟩ := resp
      cases kind with
      | accessKey view => exact fun st' h => answered_ok h _
      | _ => exact fun st' h => answered_error h _

theorem cachedNonce_script (key : CacheKey) :
    Follows (scriptProtocol sc) (OnScript (Queried sc st)) (some st) (cachedNonce key) := by
  refine ⟨trivial, fun n => ?_⟩
  refine (viewBlock_script sc st).bind (rest_onScript sc ?_)
  intro result st' h
  cases result with
  | error err => exact fun st'' heq => Option.some.inj heq ▸ h
  | ok block => exact fun st'' heq => Option.some.inj heq ▸ h

theorem script_unmoved : Unmoved (scriptProtocol sc) where
  allowed _ _ _ := trivial
  next m e r he := by
    cases m <;> cases e <;> first | rfl | cases he

/-- One query decides whether `fetch_nonce` succeeds. -/
theorem fetchNonce_script (accountId : AccountId) (publicKey : PublicKey) :
    Follows (scriptProtocol sc) (OnScript (Queried sc st)) (some st)
      (fetchNonce accountId publicKey) := by
  apply fetchNonce_frame (script_unmoved sc)
  · exact cachedNonce_script sc st _
  · apply (accessKey_script sc st accountId publicKey).mono
    intro result m h
    cases result with
    | error err => exact h
    | ok x =>
        refine ⟨trivial, ?_⟩
        cases m <;> exact h

variable (cr : Crypto) (signer : SignerExt) (receiverId : AccountId) (actions : List Action)

/-- What an attempt has signed. -/
def Prepared (sc : Script) (st : Attempts) (actions : List Action)
    (result : Result SignedTransaction) (st' : Attempts) : Prop :=
  Queried sc st result st' ∧ ∀ stx, result = .ok stx → stx.transaction.actions = actions

theorem signTx_script :
    Follows (scriptProtocol sc) (OnScript (Prepared sc st actions)) (some st)
      (signTx cr signer receiverId actions) := by
  unfold signTx
  refine (signer.publicKey_sync.offline.script sc st).bind (rest_onScript sc ?_)
  rintro pk st₁ rfl
  refine (signer.accountId_sync.offline.script sc st₁).bind (rest_onScript sc ?_)
  rintro accountId st₂ rfl
  refine (fetchNonce_script sc st₂ accountId pk).bind (rest_onScript sc ?_)
  intro result st₃ h
  cases result with
  | error err =>
      intro st' heq
      obtain rfl := Option.some.inj heq
      exact ⟨h, fun stx hstx => nomatch hstx⟩
  | ok x =>
      refine (signer.accountId_sync.offline.script sc st₃).bind (rest_onScript sc ?_)
      rintro signerId st₄ rfl
      refine ((signer.sign_sync _).offline.script sc st₄).bind (rest_onScript sc ?_)
      rintro signature st₅ rfl st' heq
      obtain rfl := Option.some.inj heq
      refine ⟨h, fun stx hstx => ?_⟩
      cases hstx
      rfl

/-- What one attempt submits, and whether it ends the retrying. -/
structure Attempted (sc : Script) (st : Attempts) (actions : List Action) (success : Bool)
    (st' : Attempts) : Prop where
  attempt : st'.attempt = st.attempt + 1
  success : success = sc.settles st.attempt
  submitted : ∃ new, st'.submitted = st.submitted ++ new ∧
    new.map Prod.snd = (if sc.query st.attempt = true then [sc.accepts st.attempt] else []) ∧
    ∀ x ∈ new, x.1.transaction.actions = actions

theorem attempted_fail (hq : sc.query st.attempt = false) :
    Attempted sc st actions false st.fail := by
  refine ⟨rfl, ?_, [], ?_, ?_, ?_⟩
  · rw [Script.settles, hq, Bool.false_and]
  · exact (List.append_nil _).symm
  · simp [hq]
  · simp

theorem attempted_submit {stx : SignedTransaction} (hq : sc.query st.attempt = true)
    (hactions : stx.transaction.actions = actions) :
    Attempted sc st actions (sc.reply st.attempt).settles
      (st.submit stx (sc.accepts st.attempt)) := by
  refine ⟨rfl, ?_, [(stx, sc.accepts st.attempt)], rfl, ?_, ?_⟩
  · rw [Script.settles, hq, Bool.true_and]
  · simp [hq]
  · intro x hx
    rw [List.mem_singleton.mp hx]
    exact hactions

theorem received_isOk (reply : SendReply) :
    (SendReply.received reply).isOk = SendReply.settles reply := by
  cases reply with
  | error err => rfl
  | ok response =>
      obtain ⟨outcome, level⟩ := response
      cases outcome <;> rfl

theorem sendTxOnce_script (waitUntil : TxExecutionStatus) :
    Follows (scriptProtocol sc)
      (OnScript fun result st' => Attempted sc st actions result.isOk st') (some st)
      (sendTxOnce cr signer receiverId actions waitUntil) := by
  rw [sendTxOnce_eq]
  apply sendWith_frame (K := fun _ => OnScript (fun _ st' => st' = st) ())
    (S := fun _ => OnScript (Prepared sc st actions))
  · exact ((readKey_offline signer).script sc st).mono fun _ _ h => h
  · intro key m hm
    refine follows_onScript sc fun st' hst' => ?_
    obtain rfl := hm st' hst'
    exact signTx_script sc st' cr signer receiverId actions
  · intro key err m hm st' hst'
    obtain ⟨⟨hq, rfl⟩, -⟩ := hm st' hst'
    exact attempted_fail sc st actions hq
  · intro key stx m hm
    refine ⟨trivial, fun reply => follows_onScript sc fun st' hst' => ?_⟩
    cases m with
    | none => cases hst'
    | some st₁ =>
        obtain ⟨⟨hq, rfl⟩, hactions⟩ := hm st₁ rfl
        -- the reply is that of the script, or nothing is left to show
        obtain ⟨hreply, hst⟩ := Option.ite_none_right_eq_some.mp hst'
        obtain rfl := Option.some.inj hst
        have hsubmit := attempted_submit sc st₁ actions hq (hactions stx rfl)
        rw [← hreply, ← received_isOk] at hsubmit
        have hoffline := checkAndInvalidateCache_invalidates.offline key reply
        apply (hoffline.script sc _).mono
        intro _ m hm st' hst'
        rw [hm st' hst']
        exact hsubmit

/-- What the attempts of one await submit. -/
structure Retried (sc : Script) (st : Attempts) (actions : List Action) (retries : ℕ)
    (st' : Attempts) : Prop where
  submitted : ∃ new, st'.submitted = st.submitted ++ new ∧
    new.map Prod.snd = sc.flagsFrom retries st.attempt ∧
    ∀ x ∈ new, x.1.transaction.actions = actions

/-- The acceptances of what is submitted are those of the script, attempt by attempt. -/
theorem retryStart_script {action : Task (Result α)}
    (haction : ∀ st, Follows (scriptProtocol sc)
      (OnScript fun result st' => Attempted sc st actions result.isOk st') (some st) action)
    (strategy : List ℕ) (st : Attempts) :
    Follows (scriptProtocol sc) (OnScript fun _ => Retried sc st actions strategy.length) (some st)
      (retryStart strategy action) := by
  induction strategy generalizing st with
  | nil =>
      apply (haction st).mono
      intro result m h st' hst
      exact ⟨(h st' hst).submitted⟩
  | cons delay strategy ih =>
      refine (haction st).bind (rest_onScript sc ?_)
      rintro result st₁ ⟨hattempt, hsettles, new, hnew, hflags, hactions⟩
      cases result with
      | ok a =>
          intro st' heq
          obtain rfl := Option.some.inj heq
          refine ⟨new, hnew, ?_, hactions⟩
          rw [hflags, List.length_cons, Script.flagsFrom, ← hsettles]
          simp [Except.isOk, Except.toBool]
      | error err =>
          refine ⟨trivial, fun _ => ?_⟩
          refine (ih st₁).mono ?_
          intro _ m h st' hst
          obtain ⟨new', hnew', hflags', hactions'⟩ := (h st' hst).submitted
          refine ⟨new ++ new', by rw [hnew', hnew, List.append_assoc], ?_, ?_⟩
          · rw [List.map_append, hflags, hflags', hattempt, List.length_cons, Script.flagsFrom,
              ← hsettles]
            simp [Except.isOk, Except.toBool]
          · intro x hx
            rcases List.mem_append.mp hx with hx | hx
            · exact hactions x hx
            · exact hactions' x hx

theorem intoFuture_script (strategy : Option (List ℕ)) (waitUntil : TxExecutionStatus) :
    Follows (scriptProtocol sc)
      (OnScript fun _ => Retried sc st actions (strategy.getD []).length) (some st)
      (RetryableTransaction.intoFuture cr ⟨signer, receiverId, .ok actions, strategy, waitUntil⟩) := by
  have haction := fun st => sendTxOnce_script sc st cr signer receiverId actions waitUntil
  cases strategy with
  | none => exact retryStart_script sc actions haction [] st
  | some strategy => exact retryStart_script sc actions haction strategy st

end follows

/-! ### When nothing is sent after an accepted transaction -/

namespace Script

variable (sc : Script)

/-- Attempt `i` is made: the attempts from `k` on before it have all failed. -/
def Reaches (k i : ℕ) : Prop := ∀ m, k ≤ m → m < i → sc.settles m = false

/-- Of the attempts from `k` to `k + n`, each one that is made and accepted is answered with a final
outcome, or every query after it fails. -/
def Conclusive (k n : ℕ) : Prop :=
  ∀ i, k ≤ i → i ≤ k + n → sc.Reaches k i → sc.query i = true → sc.accepts i = true →
    (sc.reply i).settles = true ∨ ∀ j, i < j → j ≤ k + n → sc.query j = false

theorem flagsFrom_eq_nil (n k : ℕ) :
    sc.flagsFrom n k = [] ↔ ∀ j, k ≤ j → j ≤ k + n → sc.query j = false := by
  induction n generalizing k with
  | zero =>
      have hk : (∀ j, k ≤ j → j ≤ k + 0 → sc.query j = false) ↔ sc.query k = false := by
        constructor
        · intro h
          exact h k (Nat.le_refl k) (Nat.le_refl k)
        · intro h j hj hj'
          rwa [show j = k by omega]
      rw [hk]
      cases h : sc.query k <;> simp [flagsFrom, h]
  | succ n ih =>
      have hk : (∀ j, k ≤ j → j ≤ k + (n + 1) → sc.query j = false) ↔
          sc.query k = false ∧ ∀ j, k + 1 ≤ j → j ≤ k + 1 + n → sc.query j = false := by
        constructor
        · intro h
          exact ⟨h k (Nat.le_refl k) (by omega), fun j hj hj' => h j (by omega) (by omega)⟩
        · rintro ⟨h, hrest⟩ j hj hj'
          rcases Nat.eq_or_lt_of_le hj with rfl | hlt
          · exact h
          · exact hrest j hlt (by omega)
      rw [hk, ← ih]
      cases h : sc.query k <;> simp [flagsFrom, settles, h]

theorem reaches_succ {k i : ℕ} (h : sc.settles k = false) :
    sc.Reaches k i ↔ sc.Reaches (k + 1) i := by
  constructor
  · intro hr m hm hmi
    exact hr m (by omega) hmi
  · intro hr m hm hmi
    rcases Nat.eq_or_lt_of_le hm with rfl | hlt
    · exact h
    · exact hr m hlt hmi

theorem conclusive_succ (k n : ℕ) :
    sc.Conclusive k (n + 1) ↔
      (sc.query k = true → sc.accepts k = true →
        (sc.reply k).settles = true ∨ sc.flagsFrom n (k + 1) = []) ∧
      (sc.settles k = false → sc.Conclusive (k + 1) n) := by
  rw [flagsFrom_eq_nil]
  constructor
  · intro h
    refine ⟨fun hq ha => ?_, fun hs i hi hin hr hq ha => ?_⟩
    · rcases h k (Nat.le_refl k) (by omega) (fun m hm hm' => absurd hm (by omega)) hq ha with h | h
      · exact .inl h
      · exact .inr fun j hj hj' => h j hj (by omega)
    · rcases h i (by omega) (by omega) ((sc.reaches_succ hs).mpr hr) hq ha with h | h
      · exact .inl h
      · exact .inr fun j hj hj' => h j hj (by omega)
  · rintro ⟨hfirst, hrest⟩ i hi hin hr hq ha
    rcases Nat.eq_or_lt_of_le hi with rfl | hlt
    · rcases hfirst hq ha with h | h
      · exact .inl h
      · exact .inr fun j hj hj' => h j hj (by omega)
    · have hs := hr k (Nat.le_refl k) hlt
      rcases hrest hs i hlt (by omega) ((sc.reaches_succ hs).mp hr) hq ha with h | h
      · exact .inl h
      · exact .inr fun j hj hj' => h j hj (by omega)

theorem pairwise_flagsFrom (n k : ℕ) :
    (sc.flagsFrom n k).Pairwise (fun earlier _ => earlier = false) ↔ sc.Conclusive k n := by
  induction n generalizing k with
  | zero =>
      have hright : sc.Conclusive k 0 := fun i hi hi' _ _ _ =>
        .inr fun j hj hj' => absurd hj (by omega)
      have hleft : (sc.flagsFrom 0 k).Pairwise (fun earlier _ => earlier = false) := by
        unfold flagsFrom
        split
        · exact List.pairwise_singleton _ _
        · exact List.Pairwise.nil
      exact ⟨fun _ => hright, fun _ => hleft⟩
  | succ n ih =>
      rw [conclusive_succ, ← ih]
      cases hq : sc.query k with
      | false => simp [flagsFrom, settles, hq]
      | true =>
          cases hs : (sc.reply k).settles with
          | true => simp [flagsFrom, settles, hq, hs]
          | false =>
              have hall : (∀ b ∈ sc.flagsFrom n (k + 1), sc.accepts k = false) ↔
                  (sc.accepts k = true → sc.flagsFrom n (k + 1) = []) := by
                constructor
                · intro h ha
                  refine List.eq_nil_iff_forall_not_mem.mpr fun b hb => ?_
                  rw [h b hb] at ha
                  cases ha
                · intro h b hb
                  cases ha : sc.accepts k with
                  | false => rfl
                  | true =>
                      rw [h ha] at hb
                      cases hb
              simp only [flagsFrom, settles, hq, hs, Bool.and_false, Bool.false_eq_true, if_true,
                if_false, List.cons_append, List.nil_append, List.pairwise_cons, true_implies,
                false_or]
              rw [hall]

end Script

/-- Nothing is submitted after an accepted transaction, so at most one is accepted. -/
structure SentOnce (submitted : List (SignedTransaction × Bool)) : Prop where
  last : submitted.Pairwise fun earlier _ => earlier.2 = false
  atMostOne : submitted.countP (·.2) ≤ 1

theorem sentOnce_iff {submitted : List (SignedTransaction × Bool)} :
    SentOnce submitted ↔ (submitted.map Prod.snd).Pairwise fun earlier _ => earlier = false := by
  rw [List.pairwise_map]
  constructor
  · exact SentOnce.last
  · intro h
    refine ⟨h, ?_⟩
    induction h with
    | nil => simp
    | @cons x l hx _ ih =>
        cases l with
        | nil => cases hb : x.2 <;> simp [hb]
        | cons y l =>
            rw [List.countP_cons_of_neg (by simpa using hx y List.mem_cons_self)]
            exact ih

/-- What one await of a `RetryableTransaction` submits carries its actions, and nothing is
submitted after an accepted transaction exactly when every attempt that is accepted is answered
with a final outcome or followed by failing queries only. -/
theorem retry_sentOnce_iff (cr : Crypto) (signer : SignerExt) (receiverId : AccountId)
    (actions : List Action) (strategy : Option (List ℕ)) (waitUntil : TxExecutionStatus)
    (sc : Script) {l : List (Act Op Op.Reply)} {result : Result FinalExecutionOutcomeView}
    {st : Attempts}
    (h : Returns (RetryableTransaction.intoFuture cr
      ⟨signer, receiverId, .ok actions, strategy, waitUntil⟩) l result)
    (hst : attempts sc l = some st) :
    (∀ x ∈ st.submitted, x.1.transaction.actions = actions) ∧
      (SentOnce st.submitted ↔ sc.Conclusive 0 (strategy.getD []).length) := by
  have hfol := intoFuture_script sc ⟨0, []⟩ cr signer receiverId actions strategy waitUntil
  obtain ⟨new, hnew, hflags, hactions⟩ := ((hfol.leads h).2 st hst).submitted
  rw [List.nil_append] at hnew
  subst hnew
  refine ⟨hactions, ?_⟩
  rw [sentOnce_iff, hflags]
  exact sc.pairwise_flagsFrom _ _

section transfers

/-- A signer, and the final outcome of its transfers. -/
def payer : InMemorySigner := ⟨⟨"alice.near"⟩, ⟨[1]⟩, ⟨[1]⟩⟩

def paid : FinalExecutionOutcomeView where
  status := .successValue []
  transaction := ⟨⟨"alice.near"⟩, ⟨[1]⟩, 1, ⟨"bob.near"⟩, ⟨[]⟩, ⟨[]⟩⟩
  transactionOutcome := ⟨⟨[]⟩, ⟨[], 0, .successValue []⟩⟩
  receiptsOutcome := []

/-- A transfer with one retry. -/
def transferOnce : RetryableTransaction where
  signer := payer.ext .transparent
  receiverId := ⟨"bob.near"⟩
  actions := .ok [.transfer 1]
  strategy := some [100]
  waitUntil := .executedOptimistic

/-- Replies to an accepted transaction: a response, a timeout or a failed connection. -/
def SendReply.toAccepted : SendReply → Bool
  | .ok _ => true
  | .error (.transportError _) => true
  | .error (.serverError (.handlerError .timeoutError)) => true
  | .error _ => false

/-- Queries succeed, and the first submission is answered with `first`. -/
def firstReply (accepted : Bool) (first : SendReply) : Script where
  query _ := true
  accepts k := if k = 0 then accepted else true
  reply k := if k = 0 then first else .ok ⟨some (.finalExecutionOutcome paid), .executedOptimistic⟩

/-- The replies to attempt `k` of the script. -/
def Script.replies (sc : Script) (k : ℕ) : (e : Op) → Option e.Reply :=
  NearFetch.replies fun call => match call with
    | .block _ => .ok ⟨⟨⟨[7]⟩, 7⟩⟩
    | .query _ _ => .ok ⟨.accessKey ⟨0, .fullAccess⟩, ⟨[7]⟩, 7⟩
    | .gasPrice _ => .error (.transportError "closed")
    | .chunk _ => .error (.transportError "closed")
    | .sendTx _ _ => sc.reply k
    | .tx _ _ _ => .error (.transportError "closed")

/-- The world of a task alone with any endpoint. -/
def aloneWith : Shared Unit Unit := ⟨fun _ => 0, fun _ => none, .free, ()⟩

/-- The first transfer is accepted and answered with a timeout. -/
def timedOut : Script := firstReply true (.error (.serverError (.handlerError .timeoutError)))

/-- The first transfer is rejected. -/
def rejectedFirst : Script := firstReply false
  (.error (.serverError (.handlerError (.invalidTransaction (.invalidNonce 1 1)))))

/-- After a timeout a second transfer is sent and accepted. -/
theorem transfer_resent :
    (∀ k, timedOut.accepts k = true → SendReply.toAccepted (timedOut.reply k) = true) ∧
      ∃ l result st, Returns (transferOnce.intoFuture .transparent) l result ∧
        attempts timedOut l = some st ∧ st.submitted.countP (·.2) = 2 ∧
        ¬ SentOnce st.submitted := by
  refine ⟨?_, ?_⟩
  · intro k _
    by_cases hk : k = 0 <;> simp [timedOut, firstReply, hk, SendReply.toAccepted]
  · have hexec : ∃ tr c st, (machine 64 anyEndpoint).exec []
        (.start aloneWith fun _ => transferOnce.intoFuture .transparent)
        (List.replicate 13 (.act () (timedOut.replies 0)) ++
          List.replicate 8 (.act () (timedOut.replies 1))) = some (tr, c) ∧
        c.thread () = some (.pure (.ok paid)) ∧ attempts timedOut (acts () tr) = some st ∧
        st.submitted.map Prod.snd = [true, true] :=
      ⟨_, _, _, rfl, rfl, rfl, rfl⟩
    obtain ⟨tr, c, st, hexec, hthread, hst, hflags⟩ := hexec
    have hcount : st.submitted.countP (·.2) = 2 := by
      have hmap := List.countP_map (p := id) (f := Prod.snd) (l := st.submitted)
      rw [hflags] at hmap
      exact hmap.symm
    refine ⟨acts () tr, .ok paid, st, (Run.start.exec hexec).leads_of_thread hthread, hst, hcount, ?_⟩
    intro h
    have hle := h.atMostOne
    omega

theorem retry_sentOnce_iff_rejectedFirst :
    ∃ l result st, Returns (transferOnce.intoFuture .transparent) l result ∧
      attempts rejectedFirst l = some st ∧ st.submitted.map Prod.snd = [false, true] ∧
      SentOnce st.submitted := by
  have hexec : ∃ tr c st, (machine 64 anyEndpoint).exec []
      (.start aloneWith fun _ => transferOnce.intoFuture .transparent)
      (List.replicate 17 (.act () (rejectedFirst.replies 0)) ++
        List.replicate 12 (.act () (rejectedFirst.replies 1))) = some (tr, c) ∧
      c.thread () = some (.pure (.ok paid)) ∧ attempts rejectedFirst (acts () tr) = some st ∧
      st.submitted.map Prod.snd = [false, true] :=
    ⟨_, _, _, rfl, rfl, rfl, rfl⟩
  obtain ⟨tr, c, st, hexec, hthread, hst, hflags⟩ := hexec
  have hpath := (Run.start.exec hexec).leads_of_thread hthread
  refine ⟨acts () tr, .ok paid, st, hpath, hst, hflags, ?_⟩
  apply (retry_sentOnce_iff _ _ _ _ _ _ _ hpath hst).2.mpr
  intro i _ hi _ _ ha
  left
  by_cases hi₀ : i = 0
  · simp [rejectedFirst, firstReply, hi₀] at ha
  · simp [rejectedFirst, firstReply, hi₀, SendReply.settles]

end transfers

end NearFetch
