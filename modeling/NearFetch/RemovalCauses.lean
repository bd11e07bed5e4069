import NearFetch.WireNonces
import NearFetch.CacheInvalidation

/-! # Why an entry is removed

The cache removes the entry of a key for two reasons: a task asks for it, or the reply to a transaction of
the key shows that its nonce was not valid (`Faults`).  `causeProtocol` remembers the last submission of a
task with its reply and allows a removal for no other reason, if the signer reads one key all the
time (`SignerExt.OneKey`), and a run says the same of every removal (`removal_caused`).

As long as there is no such reason the nonces of a key are sent once, and each task sends its own in
order (`nonces_sent_once`). -/

namespace NearFetch

open Effects FifoLock

/-! ### Signers of one key -/

/-- Whenever the signer is asked, it names the same access key. -/
def SignerExt.OneKey (signer : SignerExt) : Prop :=
  ∃ key : CacheKey, (∀ l x, Returns signer.accountId l x → x = key.1) ∧
    ∀ l x, Returns signer.publicKey l x → x = key.2

theorem SignerExt.OneKey.oneAccount {signer : SignerExt} (h : signer.OneKey) :
    signer.OneAccount := by
  obtain ⟨key, haccount, -⟩ := h
  exact ⟨key.1, haccount⟩

theorem InMemorySigner.ext_oneKey (cr : Crypto) (sg : InMemorySigner) : (sg.ext cr).OneKey := by
  refine ⟨(sg.accountId, sg.publicKey), fun l x h => ?_, fun l x h => ?_⟩
  · exact (returns_pure.mp h).2
  · exact (returns_pure.mp h).2

/-! ### Replies that remove -/

/-- The reply to a submission at this level is a reason to remove the entry. -/
def Faults (level : TxExecutionStatus) (reply : SendReply) : Prop :=
  ReportsInvalidNonce reply ∨ level = .none ∧ SendReply.handlerError reply = true

theorem not_faults_of_ok {level status : TxExecutionStatus} (h : level ≠ .none) :
    ¬ Faults level (.ok ⟨none, status⟩) := by
  rintro (hreport | ⟨hlevel, -⟩)
  · have hdecided := (invalidates_iff _).mpr hreport
    cases hdecided
  · exact h hlevel

theorem invalidateCacheFor_sound (key : CacheKey) {errs : List TxExecutionError}
    (h : errs.any TxExecutionError.invalidCache = false) : invalidateCacheFor key errs = pure () := by
  induction errs with
  | nil => rfl
  | cons err errs ih =>
      rw [List.any_cons, Bool.or_eq_false_iff] at h
      rw [invalidateCacheFor, h.1, ih h.2]
      rfl

theorem checkAndInvalidateCache_sound (key : CacheKey) {reply : SendReply}
    (h : ¬ ReportsInvalidNonce reply) : checkAndInvalidateCache key reply = pure () := by
  have hdecided : SendReply.invalidates reply = false := by
    rw [← invalidates_iff] at h
    simpa using h
  unfold SendReply.invalidates at hdecided
  rw [Bool.or_eq_false_iff] at hdecided
  obtain ⟨hreply, hresponse⟩ := hdecided
  unfold checkAndInvalidateCache
  rw [hreply]
  cases reply with
  | error err => rfl
  | ok response => exact invalidateCacheFor_sound key hresponse

/-! ### The last submission -/

/-- The last submission of a task with its reply, if it has submitted. -/
abbrev LastSent := Option (SignedTransaction × TxExecutionStatus × SendReply)

/-- The last submission was one of the key, and its reply is a reason to remove the entry. -/
def LastSent.Condemns (key : CacheKey) (st : LastSent) : Prop :=
  ∃ stx level reply, st = some (stx, level, reply) ∧ stx.transaction.key = key ∧ Faults level reply

/-- A task removes entries that it may remove of its own accord, and those of transactions that it sent
last and whose reply is a reason. -/
abbrev causeProtocol (removable : CacheKey → Prop) : Protocol Op Op.Reply where
  State := LastSent
  next
    | _, .rpc (.sendTx stx level), reply => some (stx, level, reply)
    | st, _, _ => st
  allowed
    | st, .nonceRemove key => removable key ∨ st.Condemns key
    | _, _ => True
  mayPanic _ := True

section follows

variable {α : Type} {removable : CacheKey → Prop} {st : LastSent}

theorem cause_next_of_not {e : Op} (he : e.isCause = false) (r : e.Reply) :
    (causeProtocol removable).next st e r = st := by
  cases e with
  | rpc call => cases call <;> first | rfl | cases he
  | nonceRemove key => cases he
  | _ => rfl

theorem cause_allowed_of_not {e : Op} (he : e.isCause = false) :
    (causeProtocol removable).allowed st e := by
  cases e with
  | nonceRemove key => cases he
  | _ => trivial

theorem cause_still {p : Task α} (hp : Only (fun e => e.isCause = false) p) :
    Follows (causeProtocol removable) (fun _ st' => st' = st) st p :=
  Only.follows (P := causeProtocol removable)
    (fun _ he => ⟨cause_allowed_of_not he, cause_next_of_not he⟩) trivial hp

theorem Synchronous.cause {p : Task α} (hp : Synchronous p) :
    Follows (causeProtocol removable) (fun _ st' => st' = st) st p := by
  apply cause_still
  apply hp.mono
  intro e he
  cases e <;> first | rfl | cases he

theorem fetchNonce_cause (accountId : AccountId) (publicKey : PublicKey) :
    Follows (causeProtocol removable) (fun _ st' => st' = st) st
      (fetchNonce accountId publicKey) := by
  refine fetchNonce_still (fun e he => ?_) trivial fun result => ⟨trivial, rfl⟩
  have hcause : e.isCause = false := not_cause_of_fetch he
  exact ⟨cause_allowed_of_not hcause, cause_next_of_not hcause⟩

theorem invalidateCache_cause {key : CacheKey} (h : removable key ∨ st.Condemns key) :
    Follows (causeProtocol removable) (fun _ st' => st' = st) st (invalidateCache key) :=
  ⟨trivial, fun _ => ⟨trivial, fun _ => ⟨h, fun _ => ⟨trivial, fun _ => rfl⟩⟩⟩⟩

variable (cr : Crypto) {signer : SignerExt} {key : CacheKey}
  (haccount : ∀ l x, Returns signer.accountId l x → x = key.1)
  (hpublic : ∀ l x, Returns signer.publicKey l x → x = key.2) (receiverId : AccountId)
  (actions : List Action)
include haccount hpublic

theorem readKey_cause :
    Follows (causeProtocol removable) (fun k st' => st' = st ∧ k = key) st (readKey signer) := by
  apply (signer.accountId_sync.cause.and_returns haccount).bind
  rintro accountId _ ⟨rfl, rfl⟩
  apply (signer.publicKey_sync.cause.and_returns hpublic).bind
  rintro publicKey _ ⟨rfl, rfl⟩
  exact ⟨rfl, rfl⟩

theorem signTx_cause :
    Follows (causeProtocol removable)
      (fun result _ => ∀ stx, result = .ok stx → stx.transaction.key = key) st
      (signTx cr signer receiverId actions) := by
  unfold signTx
  apply (signer.publicKey_sync.cause.and_returns hpublic).bind
  rintro pk _ ⟨rfl, rfl⟩
  apply signer.accountId_sync.cause.bind
  rintro accountId _ rfl
  apply (fetchNonce_cause accountId key.2).bind
  rintro result _ rfl
  cases result with
  | error err =>
      intro stx hstx
      cases hstx
  | ok x =>
      apply (signer.accountId_sync.cause.and_returns haccount).bind
      rintro signerId _ ⟨rfl, rfl⟩
      apply (signer.sign_sync _).cause.bind
      rintro signature _ rfl
      intro stx hstx
      cases hstx
      rfl

/-- Sending removes an entry for a reason only, if without one nothing is done on the reply. -/
theorem sendWith_cause (waitUntil : TxExecutionStatus)
    {invalidate : CacheKey → SendReply → Task Unit} (hinvalidate : Invalidates invalidate)
    (hsound : ∀ k reply, ¬ Faults waitUntil reply → invalidate k reply = pure ())
    (result : SignedTransaction → SendReply → Result α) :
    Follows (causeProtocol removable) (fun _ _ => True) st
      (sendWith cr signer receiverId actions waitUntil invalidate result) := by
  apply sendWith_frame (K := fun k _ => k = key)
    (S := fun k signed _ => k = key ∧ ∀ stx, signed = .ok stx → stx.transaction.key = key)
  · exact (readKey_cause haccount hpublic).mono fun k st' h => h.2
  · rintro k st' rfl
    apply (signTx_cause cr haccount hpublic receiverId actions).mono
    intro signed st' hsigned
    exact ⟨rfl, hsigned⟩
  · intro k err st' _
    trivial
  · rintro k stx st' ⟨rfl, hstx⟩
    refine ⟨trivial, fun reply => ?_⟩
    by_cases hfaults : Faults waitUntil reply
    · have hcondemned : LastSent.Condemns k (some (stx, waitUntil, reply)) :=
        ⟨stx, waitUntil, reply, rfl, hstx stx rfl, hfaults⟩
      have hremoval : Follows (causeProtocol removable) _ _ (invalidateCache k) :=
        invalidateCache_cause (.inr hcondemned)
      exact (hinvalidate _ _ k reply hremoval).mono fun _ _ _ => trivial
    · rw [hsound k reply hfaults]
      trivial

end follows

theorem cause_rule (cr : Crypto) (removable : CacheKey → Prop) :
    JobRule cr (causeProtocol removable) (fun _ => True) SignerExt.OneKey removable where
  fetchNonce accountId publicKey _ _ :=
    (fetchNonce_cause accountId publicKey).mono fun _ _ _ => trivial
  invalidateCache key hkey _ _ := (invalidateCache_cause (.inl hkey)).mono fun _ _ _ => trivial
  sendTxOnce signer receiverId actions waitUntil := by
    rintro ⟨key, haccount, hpublic⟩ st -
    rw [sendTxOnce_eq]
    apply sendWith_cause cr haccount hpublic _ _ _ checkAndInvalidateCache_invalidates
    intro k reply hnot
    exact checkAndInvalidateCache_sound k fun hreport => hnot (.inl hreport)
  sendTxAsync signer receiverId actions := by
    rintro ⟨key, haccount, hpublic⟩ st -
    rw [sendTxAsync_eq]
    apply sendWith_cause cr haccount hpublic _ _ _ (invalidateCacheIf_invalidates _)
    intro k reply hnot
    have hfine : SendReply.handlerError reply = false :=
      Bool.eq_false_iff.mpr fun herror => hnot (.inr ⟨rfl, herror⟩)
    rw [hfine]
    rfl
  sleep _ _ _ := ⟨trivial, fun _ => trivial⟩
  tx _ _ _ _ _ := ⟨trivial, fun _ => trivial⟩

theorem cause_submitted {removable : CacheKey → Prop} {l : List (Act Op Op.Reply)}
    {stx : SignedTransaction} {level : TxExecutionStatus} {reply : SendReply}
    (h : (causeProtocol removable).after none l = some (stx, level, reply)) :
    ∃ l₁ l₂, l = l₁ ++ ⟨.rpc (.sendTx stx level), reply⟩ :: l₂ ∧ submissions l₂ = [] := by
  induction l using List.reverseRecOn with
  | nil => cases h
  | append_singleton l a ih =>
      rw [Protocol.after_append] at h
      by_cases hsub : a.effect.submission = none
      · have hsame : (causeProtocol removable).after ((causeProtocol removable).after none l) [a] =
            (causeProtocol removable).after none l := by
          obtain ⟨e, r⟩ := a
          cases e with
          | rpc call => cases call <;> first | rfl | cases hsub
          | _ => rfl
        rw [hsame] at h
        obtain ⟨l₁, l₂, rfl, hl₂⟩ := ih h
        refine ⟨l₁, l₂ ++ [a], by simp, ?_⟩
        rw [submissions_append, hl₂, List.nil_append]
        exact List.filterMap_cons_none hsub
      · obtain ⟨e, r⟩ := a
        cases e with
        | rpc call =>
            cases call with
            | sendTx stx' level' =>
                cases h
                exact ⟨l, [], rfl, rfl⟩
            | _ => exact absurd rfl hsub
        | _ => exact absurd rfl hsub

/-! ### The nonces that are sent -/

section sent

variable {ι : Type}

/-- The nonce that an event submits for the key, with the task. -/
def sentNonce (key : CacheKey) : Event ι Op Op.Reply → Option (ι × Nonce)
  | ⟨t, ⟨.rpc (.sendTx stx _), _⟩⟩ =>
      if stx.transaction.key = key then some (t, stx.transaction.nonce) else none
  | _ => none

theorem sentNonce_eq_some {ev : Event ι Op Op.Reply} {x : ι × Nonce}
    (h : sentNonce key ev = some x) : ∃ stx level reply,
      ev = ⟨x.1, ⟨.rpc (.sendTx stx level), reply⟩⟩ ∧ stx.transaction.key = key ∧
        stx.transaction.nonce = x.2 := by
  obtain ⟨t, e, r⟩ := ev
  cases e with
  | rpc call =>
      cases call with
      | sendTx stx level =>
          obtain ⟨hkey, hx⟩ := Option.ite_none_right_eq_some.mp h
          cases hx
          exact ⟨stx, level, r, rfl, hkey, rfl⟩
      | _ => cases h
  | _ => cases h

/-- The nonces that were submitted for the key, in the order of the submissions, each with its task. -/
def sentNonces (key : CacheKey) (tr : List (Event ι Op Op.Reply)) : List (ι × Nonce) :=
  tr.filterMap (sentNonce key)

end sent

/-! ### Removals in a run -/

section runs

variable {ι W A : Type} [DecidableEq ι] {w : ℕ} {ep : Endpoint W A} {counters : CounterId → ℕ}
  {e₀ : W} {jobs : ι → List Job} {tr : List (Event ι Op Op.Reply)}
  {c : Config ι (Shared ι W) Op Op.Reply Unit} {key : CacheKey}

/-- A removal was asked for, or the last submission of the task condemns the entry. -/
theorem removal_allowed (cr : Crypto)
    (hsigners : ∀ t, ∀ job ∈ jobs t, ∀ signer, job.signer? = some signer → signer.OneKey)
    {s₀ : Shared ι W} {pre post : List (Event ι Op Op.Reply)} {t : ι}
    (h : Run (machine w ep) (.start s₀ fun t => Job.session cr (jobs t))
      (pre ++ ⟨t, ⟨.nonceRemove key, ()⟩⟩ :: post) c) :
    (∃ job ∈ jobs t, job.removes? = some key) ∨
      LastSent.Condemns key
        ((causeProtocol fun k => ∃ job ∈ jobs t, job.removes? = some k).after none (acts t pre)) := by
  have hfol := (cause_rule cr fun k => ∃ job ∈ jobs t, job.removes? = some k).session
    fun job hjob => ⟨hsigners t job hjob, fun k hk => ⟨job, hjob, hk⟩⟩
  obtain ⟨q, hq, -⟩ := h.leads t
  obtain ⟨ho, -⟩ := (hfol none trivial).leads hq
  rw [acts_append, acts_cons_self] at ho
  exact ho.append.2.1

/-- Tasks that use one client in any way, each transaction signed by a signer of one key: a task removes an
entry if one of its calls asks for that, or because of the reply to the transaction that it sent last, which
was one of that key. -/
theorem removal_caused (cr : Crypto)
    (hsigners : ∀ t, ∀ job ∈ jobs t, ∀ signer, job.signer? = some signer → signer.OneKey)
    {s₀ : Shared ι W} {pre post : List (Event ι Op Op.Reply)} {t : ι}
    (h : Run (machine w ep) (.start s₀ fun t => Job.session cr (jobs t))
      (pre ++ ⟨t, ⟨.nonceRemove key, ()⟩⟩ :: post) c) :
    (∃ job ∈ jobs t, job.removes? = some key) ∨
      ∃ pre' stx level reply mid, pre = pre' ++ ⟨t, ⟨.rpc (.sendTx stx level), reply⟩⟩ :: mid ∧
        submissions (acts t mid) = [] ∧ stx.transaction.key = key ∧ Faults level reply := by
  rcases removal_allowed cr hsigners h with hexplicit | ⟨stx, level, reply, hst, hkey, hfaults⟩
  · exact .inl hexplicit
  · obtain ⟨l₁, l₂, hl, hl₂⟩ := cause_submitted hst
    obtain ⟨pre', mid, hpre, -, hmid⟩ := acts_eq_append hl
    exact .inr ⟨pre', stx, level, reply, mid, hpre, hmid ▸ hl₂, hkey, hfaults⟩

/-- If no call removes the entry of a key, and no reply to a transaction of that key is a reason to do so, then
no two transactions are sent with one nonce of the key, and each task sends its nonces in increasing
order. -/
theorem nonces_sent_once (cr : Crypto)
    (hsigners : ∀ t, ∀ job ∈ jobs t, ∀ signer, job.signer? = some signer → signer.OneKey)
    (h : Run (machine w ep)
      (.start ⟨counters, fun _ => none, .free, e₀⟩ fun t => Job.session cr (jobs t)) tr c)
    (hno : NoOverflow tr) (hexplicit : ∀ t, ∀ job ∈ jobs t, job.removes? ≠ some key)
    (hfine : ∀ t stx level reply, ⟨t, ⟨.rpc (.sendTx stx level), reply⟩⟩ ∈ tr →
      stx.transaction.key = key → ¬ Faults level reply) :
    (sentNonces key tr).Pairwise fun a b => a.2 ≠ b.2 ∧ (a.1 = b.1 → a.2 < b.2) := by
  have haccounts : ∀ t, ∀ job ∈ jobs t, ∀ signer, job.signer? = some signer → signer.OneAccount :=
    fun t job hjob signer hsigner => (hsigners t job hjob signer hsigner).oneAccount
  have hw : ∀ t, Keeps wireProtocol (fun _ => True) (Job.session cr (jobs t)) := fun t =>
    (wire_rule cr).session fun job hjob => ⟨haccounts t job hjob, fun _ _ => trivial⟩
  -- the entry is never removed, so nothing is read anew
  have hkept : ∀ t, (⟨t, ⟨.nonceRemove key, ()⟩⟩ : Event ι Op Op.Reply) ∉ tr := by
    intro t hmem
    obtain ⟨pre, post, htr⟩ := List.append_of_mem hmem
    rw [htr] at h
    rcases removal_allowed cr hsigners h with ⟨job, hjob, hremoves⟩ |
      ⟨stx, level, reply, hst, hkey, hfaults⟩
    · exact hexplicit t job hjob hremoves
    · obtain ⟨l₁, l₂, hl, -⟩ := cause_submitted hst
      have hsent : ⟨.rpc (.sendTx stx level), reply⟩ ∈ acts t pre := by
        rw [hl]
        simp
      refine hfine t stx level reply ?_ hkey hfaults
      rw [htr]
      exact List.mem_append_left _ (mem_acts.mp hsent)
  have hincreasing : ∀ {t u : ι} {tx tx' : Transaction}, tx'.key = key →
      DrawnBefore tr t tx u tx' → tx.nonce < tx'.nonce := by
    rintro t u tx tx' hkey ⟨p, ev₁, seg, ev₂, q, htr, -, -, hlt | ⟨n, before, href, -⟩⟩
    · exact hlt
    · obtain ⟨s, reference, reply, rest, hseg, -, z, hz⟩ := href
      rw [hkey] at hz
      refine absurd ?_ (hkept z)
      rw [htr, hseg]
      simp [hz]
  refine List.pairwise_filterMap.mpr (List.pairwise_of_splits ?_)
  intro l₁ ev l₂ ev' l₃ htr a ha b hb
  obtain ⟨stx, level, reply, rfl, hkey, hnonce⟩ := sentNonce_eq_some ha
  obtain ⟨stx', level', reply', rfl, hkey', hnonce'⟩ := sentNonce_eq_some hb
  have horder := drawnBefore_of_submissions (fun t => Job.session_disciplined cr (jobs t)) hw h hno
    htr (hkey.trans hkey'.symm)
  rw [← hnonce, ← hnonce']
  rcases horder with hfirst | ⟨hne, hsecond⟩
  · have hlt := hincreasing hkey' hfirst
    exact ⟨hlt.ne, fun _ => hlt⟩
  · have hlt := hincreasing hkey hsecond
    exact ⟨hlt.ne', fun heq => absurd heq hne⟩

theorem removal_caused_crossing :
    ∃ tr c, Run (machine 64 honestChain)
        (.start ⟨fun _ => 0, fun _ => none, .free, ⟨fun _ => 0, [], []⟩⟩ fun t =>
          Job.session .transparent (crossingJobs t)) tr c ∧
      ∃ pre, tr = pre ++ [⟨true, ⟨.nonceRemove (alice.accountId, alice.publicKey), ()⟩⟩] ∧
      ((∃ job ∈ crossingJobs true, job.removes? = some (alice.accountId, alice.publicKey)) ∨
        ∃ pre' stx level reply mid,
          pre = pre' ++ ⟨true, ⟨.rpc (.sendTx stx level), reply⟩⟩ :: mid ∧
          submissions (acts true mid) = [] ∧
          stx.transaction.key = (alice.accountId, alice.publicKey) ∧ Faults level reply) := by
  have hexec : ∃ tr c, (machine 64 honestChain).exec []
      (.start ⟨fun _ => 0, fun _ => none, .free, ⟨fun _ => 0, [], []⟩⟩ fun t =>
        Job.session .transparent (crossingJobs t))
      (crossing ++ List.replicate 3 (.act true (chainReplies 2 false))) = some (tr, c) ∧
        tr = tr.take 22 ++
          ⟨true, ⟨.nonceRemove (alice.accountId, alice.publicKey), ()⟩⟩ :: [] :=
    ⟨_, _, rfl, rfl⟩
  obtain ⟨tr, c, hexec, htr⟩ := hexec
  have hrun := Run.start.exec hexec
  refine ⟨tr, c, hrun, tr.take 22, htr, ?_⟩
  rw [htr] at hrun
  refine removal_caused .transparent ?_ hrun
  intro t job hjob signer hsigner
  cases List.mem_singleton.mp hjob
  cases hsigner
  exact alice.ext_oneKey .transparent

/-- Both transactions of Alice are accepted when they are sent in the order of their nonces. -/
theorem nonces_sent_once_alice :
    ∃ tr c, Run (machine 64 honestChain)
        (.start ⟨fun _ => 0, fun _ => none, .free, ⟨fun _ => 0, [], []⟩⟩ fun t =>
          Job.session .transparent (crossingJobs t)) tr c ∧
      sentNonces (alice.accountId, alice.publicKey) tr = [(true, 1), (false, 2)] ∧
      (sentNonces (alice.accountId, alice.publicKey) tr).Pairwise fun a b =>
        a.2 ≠ b.2 ∧ (a.1 = b.1 → a.2 < b.2) := by
  have hexec : ∃ tr c stx stx', (machine 64 honestChain).exec []
      (.start ⟨fun _ => 0, fun _ => none, .free, ⟨fun _ => 0, [], []⟩⟩ fun t =>
        Job.session .transparent (crossingJobs t))
      (List.replicate 12 (.act true (chainReplies 0 true)) ++
        List.replicate 8 (.act false (chainReplies 0 true))) = some (tr, c) ∧ NoOverflow tr ∧
      sentNonces (alice.accountId, alice.publicKey) tr = [(true, 1), (false, 2)] ∧
      tr.filter (fun ev => ev.act.effect.submission.isSome) =
        [⟨true, ⟨.rpc (.sendTx stx .executedOptimistic), .ok ⟨none, .executedOptimistic⟩⟩⟩,
          ⟨false, ⟨.rpc (.sendTx stx' .executedOptimistic), .ok ⟨none, .executedOptimistic⟩⟩⟩] :=
    ⟨_, _, _, _, rfl, by unfold NoOverflow; decide, rfl, rfl⟩
  obtain ⟨tr, c, stx, stx', hexec, hno, hsent, hsubmissions⟩ := hexec
  refine ⟨tr, c, Run.start.exec hexec, hsent, ?_⟩
  refine nonces_sent_once .transparent ?_ (Run.start.exec hexec) hno ?_ ?_
  · intro t job hjob signer hsigner
    cases List.mem_singleton.mp hjob
    cases hsigner
    exact alice.ext_oneKey .transparent
  · intro t job hjob
    cases List.mem_singleton.mp hjob
    simp [Job.removes?]
  · intro t stx level reply hmem _ hfaults
    have hmem' : (⟨t, ⟨.rpc (.sendTx stx level), reply⟩⟩ : Event Bool Op Op.Reply) ∈
        tr.filter fun ev => ev.act.effect.submission.isSome := List.mem_filter.mpr ⟨hmem, rfl⟩
    rw [hsubmissions] at hmem'
    rcases List.mem_cons.mp hmem' with heq | hmem'
    · cases heq
      exact not_faults_of_ok (by decide) hfaults
    · cases List.mem_singleton.mp hmem'
      exact not_faults_of_ok (by decide) hfaults

end runs

end NearFetch
