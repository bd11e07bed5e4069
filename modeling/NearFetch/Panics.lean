import NearFetch.AccessKeyQueries
import NearFetch.ArgumentSetters

/-! # Panics

Where the addition of nonces wraps, nothing of the client panics by itself; a signer may.  The rotating signer
panics in a remainder if it has no keys, and `account_id` of an empty signer is `unimplemented!()`, so the
signers of the crate that can panic are known (`SignerExt.Defective`).  Each transaction asks its signer for the
account first, so a task can panic exactly when it signs one with such a signer (`session_panics_iff`).

The signer is asked only outside of `fetch_nonce` and `invalidate_cache`, with no guard in hand, so a task that
panics leaves the lock of the cache as it is (`jobs_panic`). -/

namespace NearFetch

open Effects FifoLock

/-! ### Signers -/

/-- The signers of the crate. -/
inductive SignerExt.Provided (cr : Crypto) : SignerExt → Prop
  | inMemory (sg : InMemorySigner) : Provided cr (sg.ext cr)
  | signer (s : Signer) : Provided cr (s.ext cr)
  | rotating (ks : KeyRotatingSigner) : Provided cr (ks.ext cr)

/-- An empty signer, and rotating signers without keys or with an empty key. -/
inductive SignerExt.Defective (cr : Crypto) : SignerExt → Prop
  | empty : Defective cr (Signer.empty.ext cr)
  | noKeys {ks : KeyRotatingSigner} (h : ks.signers = []) : Defective cr (ks.ext cr)
  | emptyKey {ks : KeyRotatingSigner} (h : Signer.empty ∈ ks.signers) : Defective cr (ks.ext cr)

section signers

variable {cr : Crypto} {ks : KeyRotatingSigner} {signer : SignerExt}

theorem KeyRotatingSigner.exists_select (h : ks.signers ≠ []) (v : ℕ) :
    ∃ s ∈ ks.signers, ks.select v = pure s := by
  have hlt : v % ks.signers.length < ks.signers.length :=
    Nat.mod_lt v (List.length_pos_iff.mpr h)
  refine ⟨ks.signers[v % ks.signers.length], List.getElem_mem hlt, ?_⟩
  rw [select, List.getElem?_eq_getElem hlt]

theorem InMemorySigner.ext_reliable (sg : InMemorySigner) : (sg.ext cr).Reliable :=
  ⟨calm_pure _, calm_pure _, fun _ => calm_pure _⟩

theorem Signer.accountId_calm {s : Signer} (h : s ≠ .empty) : Calm s.accountId := by
  cases s with
  | empty => exact absurd rfl h
  | inMemory sg => exact calm_pure _

theorem KeyRotatingSigner.ext_reliable (hne : ks.signers ≠ []) (hkeys : Signer.empty ∉ ks.signers) :
    (ks.ext cr).Reliable := by
  have hselect : ∀ v, Calm (ks.select v) := by
    intro v
    obtain ⟨s, -, heq⟩ := ks.exists_select hne v
    rw [heq]
    exact calm_pure s
  have haccount : ∀ v, Calm (ks.select v >>= Signer.accountId) := by
    intro v
    obtain ⟨s, hs, heq⟩ := ks.exists_select hne v
    rw [heq, pure_bind]
    exact Signer.accountId_calm (ne_of_mem_of_not_mem hs hkeys)
  exact
    { accountId := calm_op haccount
      publicKey := (calm_op hselect).bind fun _ => calm_pure _
      sign := fun _ => (calm_op hselect).bind fun _ => calm_pure _ }

/-- A signer of the crate is reliable unless it is defective. -/
theorem SignerExt.Provided.reliable (hs : signer.Provided cr) (h : ¬ signer.Defective cr) :
    signer.Reliable := by
  cases hs with
  | inMemory sg => exact sg.ext_reliable
  | signer s =>
      cases s with
      | empty => exact absurd .empty h
      | inMemory sg => exact sg.ext_reliable
  | rotating ks =>
      exact KeyRotatingSigner.ext_reliable (fun hnil => h (.noKeys hnil))
        fun hempty => h (.emptyKey hempty)

theorem KeyRotatingSigner.accountId_leads (v : ℕ) :
    Leads ks.accountId [⟨.counterLoad ks.counter, v⟩] (ks.select v >>= Signer.accountId) :=
  .step (.refl _)

theorem SignerExt.Defective.not_calm (h : signer.Defective cr) : ¬ Calm signer.accountId := by
  intro hcalm
  cases h with
  | empty => exact hcalm [] _ (.refl _)
  | @noKeys ks hnil =>
      have hselect : ks.select 0 =
          .panic "attempt to calculate the remainder with a divisor of zero" := by
        rw [KeyRotatingSigner.select, hnil]
        rfl
      have hpath := ks.accountId_leads 0
      rw [hselect] at hpath
      exact hcalm _ _ hpath
  | @emptyKey ks hmem =>
      obtain ⟨v, hv, hempty⟩ := List.getElem_of_mem hmem
      have hselect : ks.select v = pure .empty := by
        rw [KeyRotatingSigner.select, Nat.mod_eq_of_lt hv, List.getElem?_eq_getElem hv, hempty]
      have hpath := ks.accountId_leads v
      rw [hselect] at hpath
      exact hcalm _ _ hpath

end signers

/-! ### Calls -/

section calls

variable {cr : Crypto} {signer : SignerExt} {receiverId : AccountId} {actions : List Action}
  {waitUntil : TxExecutionStatus}

/-- Sending asks the signer for its account first. -/
theorem not_calm_sendWith {α : Type} (hs : signer.Defective cr)
    (invalidate : CacheKey → SendReply → Task Unit) (result : SignedTransaction → SendReply → Result α) :
    ¬ Calm (sendWith cr signer receiverId actions waitUntil invalidate result) := by
  intro h
  exact hs.not_calm h.first.first

theorem calm_rule (cr : Crypto) :
    JobRule cr (calmProtocol Op Op.Reply) (fun _ => True) SignerExt.Reliable fun _ => True where
  fetchNonce accountId publicKey _ _ := calm_iff.mp (fetchNonce_calm accountId publicKey)
  invalidateCache key _ _ _ := calm_iff.mp (invalidateCache_calm key)
  sendTxOnce signer receiverId actions waitUntil hs _ _ := by
    rw [sendTxOnce_eq]
    exact calm_iff.mp (sendWith_calm hs checkAndInvalidateCache_invalidates _)
  sendTxAsync signer receiverId actions hs _ _ := by
    rw [sendTxAsync_eq]
    exact calm_iff.mp (sendWith_calm hs (invalidateCacheIf_invalidates _) _)
  sleep _ _ _ := ⟨trivial, fun _ => trivial⟩
  tx _ _ _ _ _ := ⟨trivial, fun _ => trivial⟩

end calls

/-! ### Sessions -/

namespace Job

/-- The actions of the transaction that the call signs. -/
def actions : Job → Result (List Action)
  | .sendTx t => t.actions
  | .sendTxAsync _ _ actions => .ok actions
  | .call t => t.function.intoAction.map fun action => [.functionCall action]
  | .callAsync t => t.function.intoAction.map fun action => [.functionCall action]
  | .batch t => t.actions
  | .batchAsync t => t.actions
  | _ => .ok []

/-- The call signs a transaction with the signer, and its actions hold no error. -/
structure Signs (job : Job) (signer : SignerExt) : Prop where
  signer : job.signer? = some signer
  actions : job.actions.isOk = true

theorem Signs.exists_actions {job : Job} {signer : SignerExt} (h : job.Signs signer) :
    ∃ actions, job.actions = .ok actions := by
  have hok := h.actions
  cases hactions : job.actions with
  | ok actions => exact ⟨actions, rfl⟩
  | error err =>
      rw [hactions] at hok
      cases hok

end Job

section sessions

variable {cr : Crypto} {signer : SignerExt} {job : Job} {jobs : List Job}

theorem forget_calm {α : Type} {p : Task α} : Calm (forget p) ↔ Calm p :=
  ⟨fun h => h.first, fun h => h.bind fun _ => calm_pure _⟩

theorem intoFuture_calm_of_error {t : RetryableTransaction} {err : Error} (h : t.actions = .error err) :
    Calm (t.intoFuture cr) := by
  rw [RetryableTransaction.intoFuture, h]
  exact calm_pure _

theorem task_calm_of_error {err : Error} (h : job.actions = .error err) : Calm (job.task cr) := by
  cases job with
  | sendTx t => exact forget_calm.mpr (intoFuture_calm_of_error h)
  | call t => exact forget_calm.mpr ((intoFuture_calm_of_error h).bind fun _ => calm_pure _)
  | callAsync t =>
      cases haction : t.function.intoAction with
      | ok action =>
          rw [Job.actions, haction] at h
          cases h
      | error err =>
          rw [Job.task, forget_calm, FunctionCallTransaction.transactAsync, haction]
          exact calm_pure _
  | batch t => exact forget_calm.mpr (intoFuture_calm_of_error h)
  | batchAsync t =>
      rw [Job.actions] at h
      rw [Job.task, forget_calm, BatchTransaction.transactAsync, h]
      exact calm_pure _
  | _ => cases h

theorem task_calm (h : ∀ signer, job.Signs signer → signer.Reliable) : Calm (job.task cr) := by
  cases hactions : job.actions with
  | error err => exact task_calm_of_error hactions
  | ok actions =>
      have hsigners : ∀ signer, job.signer? = some signer → signer.Reliable := by
        intro signer hsigner
        refine h signer ⟨hsigner, ?_⟩
        rw [hactions]
        rfl
      exact calm_iff.mpr ((calm_rule cr).job ⟨hsigners, fun _ _ => trivial⟩ () trivial)

theorem not_calm_sendTxAsync {receiverId : AccountId} {actions : List Action}
    (hs : signer.Defective cr) : ¬ Calm (sendTxAsync cr signer receiverId actions) := by
  rw [sendTxAsync_eq]
  exact not_calm_sendWith hs _ _

theorem not_calm_intoFuture {t : RetryableTransaction} {actions : List Action}
    (h : t.actions = .ok actions) (hs : t.signer.Defective cr) : ¬ Calm (t.intoFuture cr) := by
  rw [t.intoFuture_ok cr h, sendTxOnce_eq]
  intro hcalm
  cases hstrategy : t.strategy.getD [] with
  | nil =>
      rw [hstrategy] at hcalm
      exact not_calm_sendWith hs _ _ hcalm
  | cons delay strategy =>
      rw [hstrategy] at hcalm
      exact not_calm_sendWith hs _ _ hcalm.first

theorem not_calm_task (h : job.Signs signer) (hs : signer.Defective cr) : ¬ Calm (job.task cr) := by
  obtain ⟨actions, hactions⟩ := h.exists_actions
  have hsigner := h.signer
  intro hcalm
  cases job with
  | sendTx t =>
      cases hsigner
      exact not_calm_intoFuture hactions hs (forget_calm.mp hcalm)
  | sendTxAsync signer' receiverId actions' =>
      cases hsigner
      exact not_calm_sendTxAsync hs (forget_calm.mp hcalm)
  | call t =>
      cases hsigner
      exact not_calm_intoFuture hactions hs (forget_calm.mp hcalm).first
  | callAsync t =>
      cases hsigner
      cases haction : t.function.intoAction with
      | error err =>
          rw [Job.actions, haction] at hactions
          cases hactions
      | ok action =>
          rw [Job.task, forget_calm, FunctionCallTransaction.transactAsync, haction] at hcalm
          exact not_calm_sendTxAsync hs hcalm.first
  | batch t =>
      cases hsigner
      exact not_calm_intoFuture hactions hs (forget_calm.mp hcalm)
  | batchAsync t =>
      cases hsigner
      rw [Job.actions] at hactions
      rw [Job.task, forget_calm, BatchTransaction.transactAsync, hactions] at hcalm
      exact not_calm_sendTxAsync hs hcalm.first
  | _ => cases hsigner

/-- Every call is reached, if those before it do not panic. -/
theorem session_calm_iff : Calm (Job.session cr jobs) ↔ ∀ job ∈ jobs, Calm (job.task cr) := by
  induction jobs with
  | nil => exact iff_of_true (calm_pure _) fun _ h => absurd h List.not_mem_nil
  | cons job jobs ih =>
      rw [List.forall_mem_cons, ← ih]
      constructor
      · intro h
        exact ⟨h.first, h.rest reply_nonempty⟩
      · rintro ⟨hjob, hjobs⟩
        exact hjob.bind fun _ => hjobs

/-- A task can panic exactly when it signs a transaction with a defective signer. -/
theorem session_panics_iff
    (hsigners : ∀ job ∈ jobs, ∀ signer, job.signer? = some signer → signer.Provided cr) :
    (∃ l msg, Leads (Job.session cr jobs) l (.panic msg)) ↔
      ∃ job ∈ jobs, ∃ signer, job.Signs signer ∧ signer.Defective cr := by
  constructor
  · rintro ⟨l, msg, hl⟩
    by_contra hnone
    have hcalm : Calm (Job.session cr jobs) := by
      refine session_calm_iff.mpr fun job hjob => task_calm fun signer hsigns => ?_
      exact (hsigners job hjob signer hsigns.signer).reliable fun hs =>
        hnone ⟨job, hjob, signer, hsigns, hs⟩
    exact hcalm l msg hl
  · rintro ⟨job, hjob, signer, hsigns, hs⟩
    by_contra hnone
    have hcalm : Calm (Job.session cr jobs) := fun l msg hl => hnone ⟨l, msg, hl⟩
    exact not_calm_task hsigns hs (session_calm_iff.mp hcalm job hjob)

end sessions

/-! ### Runs -/

section runs

variable {ι W A : Type} [DecidableEq ι]

/-- Tasks that use one client in any way, with signers of the crate: a task that panics signs some transaction
with a defective signer, has nothing to do with the lock of the cache, and leaves everything as it is. -/
theorem jobs_panic (cr : Crypto) (w : ℕ) (ep : Endpoint W A) (jobs : ι → List Job)
    (counters : CounterId → ℕ) (nonces : CacheKey → Option Nonce) (e : W)
    {tr : List (Event ι Op Op.Reply)} {c : Config ι (Shared ι W) Op Op.Reply Unit} {t : ι} {msg : String}
    (hsigners : ∀ job ∈ jobs t, ∀ signer, job.signer? = some signer → signer.Provided cr)
    (h : Run (machine w ep)
      (.start ⟨counters, nonces, .free, e⟩ fun t => Job.session cr (jobs t)) tr c)
    (ht : c.thread t = some (.panic msg)) :
    (∃ job ∈ jobs t, ∃ signer, job.Signs signer ∧ signer.Defective cr) ∧
      ¬ HoldsGuard c t ∧ ¬ WaitsForGuard c t ∧ (machine w ep).discard t c.shared = c.shared := by
  have hd : ∀ t, Disciplined (Job.session cr (jobs t)) := fun t => Job.session_disciplined cr (jobs t)
  have hidle : nonceProtocol.after .idle (acts t tr) = .idle := h.follows hd ht
  obtain ⟨hholds, hwaits⟩ := outside_of_idle hd h ht hidle (fun _ _ hp => by cases hp)
    fun _ _ hp => by cases hp
  refine ⟨(session_panics_iff hsigners).mp ⟨_, msg, h.leads_of_thread ht⟩, hholds, hwaits, ?_⟩
  have hlock : c.shared.lock.discard t = c.shared.lock := by
    apply RwLock.discard_eq_self
    · exact fun hr => hholds (.inl hr)
    · exact fun hw => hholds (.inr hw)
    · exact fun m hq => hwaits ⟨m, .inl hq⟩
  show { c.shared with lock := c.shared.lock.discard t } = c.shared
  rw [hlock]

/-- A rotating signer without keys. -/
def keyless : KeyRotatingSigner := .fromSigners [] 0

/-- One task sends with it, and the other looks a nonce up. -/
def keylessJobs (sends : Bool) : List Job :=
  if sends then [.sendTx ⟨keyless.ext .transparent, ⟨"bob.near"⟩, .ok [.transfer 1], none,
    .executedOptimistic⟩]
  else [.fetchNonce ⟨"alice.near"⟩ ⟨[1]⟩]

/-- The task panics while the other holds a guard. -/
theorem jobs_panic_keyless :
    ∃ tr c, Run (machine 64 anyEndpoint) (.start ⟨fun _ => 0, fun _ => none, .free, ()⟩ fun t =>
        Job.session .transparent (keylessJobs t)) tr c ∧
      HoldsGuard c false ∧
      (∃ job ∈ keylessJobs true, ∃ signer, job.Signs signer ∧ signer.Defective .transparent) ∧
      ¬ HoldsGuard c true ∧ ¬ WaitsForGuard c true ∧
      (machine 64 anyEndpoint).discard true c.shared = c.shared := by
  have hexec : ∃ tr c msg, (machine 64 anyEndpoint).exec []
      (.start ⟨fun _ => 0, fun _ => none, .free, ()⟩ fun t =>
        Job.session .transparent (keylessJobs t))
      [.act false (chainReplies 5 true), .act false (chainReplies 5 true),
        .act true (chainReplies 5 true)] = some (tr, c) ∧
      c.thread true = some (.panic msg) ∧ c.shared.lock.readers = [false] :=
    ⟨_, _, _, rfl, rfl, rfl⟩
  obtain ⟨tr, c, msg, hexec, hthread, hreaders⟩ := hexec
  have hrun := Run.start.exec hexec
  have hsigners : ∀ job ∈ keylessJobs true, ∀ signer, job.signer? = some signer →
      signer.Provided .transparent := by
    intro job hjob signer hsigner
    cases List.mem_singleton.mp hjob
    cases hsigner
    exact .rotating keyless
  refine ⟨tr, c, hrun, .inl ?_, jobs_panic _ _ _ _ _ _ _ hsigners hrun hthread⟩
  rw [hreaders]
  exact List.mem_singleton.mpr rfl

end runs

end NearFetch
