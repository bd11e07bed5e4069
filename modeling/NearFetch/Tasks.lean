import NearFetch.Polling
import NearFetch.NonceProtocol

/-! # What a task does with a client

A task on a clone of the client makes one call after another, each of them any of those that the
client offers for nonces and transactions (`Job`).  They are all put together from a few parts: looking a
nonce up, removing an entry, sending a transaction once in one of the two ways, sleeping and asking for a
status.  So a protocol has to be followed for these parts only: `JobRule` collects what has to be shown,
and `JobRule.session` says that then every session of jobs follows it, with its retries and polls.

Which signers a task sends with, and which entries it removes of its own accord, is left to the user
of the rule (`Job.Within`). -/

namespace NearFetch

open Effects

/-- A call of the client that a task awaits; `wait` gives up after so many polls. -/
inductive Job where
  | fetchNonce (accountId : AccountId) (publicKey : PublicKey)
  | invalidateCache (key : CacheKey)
  | checkAndInvalidateCache (key : CacheKey) (result : SendReply)
  | sendTx (t : RetryableTransaction)
  | sendTxAsync (signer : SignerExt) (receiverId : AccountId) (actions : List Action)
  | call (t : FunctionCallTransaction)
  | callAsync (t : FunctionCallTransaction)
  | batch (t : BatchTransaction)
  | batchAsync (t : BatchTransaction)
  | status (h : AsyncTransactionStatus)
  | wait (h : AsyncTransactionStatus) (interval polls : ℕ)
  | waitUntil (h : AsyncTransactionStatus) (level : TxExecutionStatus)

/-- The program whose result is not used any further. -/
def forget {α : Type} (p : Task α) : Task Unit := do
  let _ ← p
  return ()

namespace Job

/-- The task that makes the call and forgets the result. -/
def task (cr : Crypto) : Job → Task Unit
  | .fetchNonce accountId publicKey => forget (NearFetch.fetchNonce accountId publicKey)
  | .invalidateCache key => NearFetch.invalidateCache key
  | .checkAndInvalidateCache key result => NearFetch.checkAndInvalidateCache key result
  | .sendTx t => forget (t.intoFuture cr)
  | .sendTxAsync signer receiverId actions =>
      forget (NearFetch.sendTxAsync cr signer receiverId actions)
  | .call t => forget (t.transact cr)
  | .callAsync t => forget (t.transactAsync cr)
  | .batch t => forget (t.transact cr)
  | .batchAsync t => forget (t.transactAsync cr)
  | .status h => forget h.status
  | .wait h interval polls => forget (h.wait interval polls)
  | .waitUntil h level => forget (h.waitUntil level)

/-- A task that makes one call after another. -/
def session (cr : Crypto) : List Job → Task Unit
  | [] => return ()
  | job :: jobs => do
      job.task cr
      session cr jobs

/-- The signer that the call signs with. -/
def signer? : Job → Option SignerExt
  | .sendTx t => some t.signer
  | .sendTxAsync signer _ _ => some signer
  | .call t => some t.signer
  | .callAsync t => some t.signer
  | .batch t => some t.signer
  | .batchAsync t => some t.signer
  | _ => none

/-- The entry that the call may remove of its own accord. -/
def removes? : Job → Option CacheKey
  | .invalidateCache key => some key
  | .checkAndInvalidateCache key _ => some key
  | _ => none

/-- The call signs with such a signer, and removes such an entry of its own accord. -/
structure Within (ok : SignerExt → Prop) (removable : CacheKey → Prop) (job : Job) : Prop where
  signs : ∀ signer, job.signer? = some signer → ok signer
  removes : ∀ key, job.removes? = some key → removable key

theorem within_any (job : Job) : job.Within (fun _ => True) fun _ => True :=
  ⟨fun _ _ => trivial, fun _ _ => trivial⟩

end Job

/-! ### The rule for sessions -/

/-- What has to be shown for a protocol that every job follows from `I` to `I`. -/
structure JobRule (cr : Crypto) (P : Protocol Op Op.Reply) (I : P.State → Prop)
    (ok : SignerExt → Prop) (removable : CacheKey → Prop) : Prop where
  fetchNonce : ∀ accountId publicKey, Keeps P I (fetchNonce accountId publicKey)
  invalidateCache : ∀ key, removable key → Keeps P I (invalidateCache key)
  sendTxOnce : ∀ signer receiverId actions waitUntil, ok signer →
    Keeps P I (sendTxOnce cr signer receiverId actions waitUntil)
  sendTxAsync : ∀ signer receiverId actions, ok signer →
    Keeps P I (sendTxAsync cr signer receiverId actions)
  sleep : ∀ millis, Keeps P I (effect (.sleep millis))
  tx : ∀ senderId hash level, Keeps P I (effect (.rpc (.tx senderId hash level)))

namespace JobRule

variable {cr : Crypto} {P : Protocol Op Op.Reply} {I : P.State → Prop} {ok : SignerExt → Prop}
  {removable : CacheKey → Prop} {α : Type}

theorem forget {p : Task α} (hp : Keeps P I p) : Keeps P I (forget p) :=
  hp.bind fun _ => keeps_pure _

variable (h : JobRule cr P I ok removable)
include h

theorem retryStart {action : Task (Result α)} (haction : Keeps P I action) (strategy : List ℕ) :
    Keeps P I (retryStart strategy action) := by
  induction strategy with
  | nil => exact haction
  | cons delay strategy ih =>
      refine haction.bind fun result => ?_
      cases result with
      | ok a => exact keeps_pure _
      | error err => exact (h.sleep delay).bind fun _ => ih

theorem intoFuture (t : RetryableTransaction) (hok : ok t.signer) :
    Keeps P I (t.intoFuture cr) := by
  unfold RetryableTransaction.intoFuture
  cases t.actions with
  | error err => exact keeps_pure _
  | ok actions =>
      have honce := h.sendTxOnce t.signer t.receiverId actions t.waitUntil hok
      cases t.strategy with
      | none => exact honce
      | some strategy => exact h.retryStart honce strategy

theorem statusTxAsync (senderId : AccountId) (hash : CryptoHash) (level : TxExecutionStatus) :
    Keeps P I (statusTxAsync senderId hash level) := by
  refine (h.tx senderId hash level).bind fun reply => ?_
  cases reply with
  | error err => exact keeps_pure _
  | ok response =>
      obtain ⟨outcome, status⟩ := response
      cases status <;> cases outcome <;> exact keeps_pure _

theorem wait (s : AsyncTransactionStatus) (interval polls : ℕ) :
    Keeps P I (s.wait interval polls) := by
  induction polls with
  | zero => exact keeps_pure _
  | succ polls ih =>
      rw [wait_succ]
      refine (h.tx s.senderId s.hash .included).bind fun reply => ?_
      cases StatusReply.poll reply with
      | error err => exact keeps_pure _
      | ok poll =>
          cases poll with
          | ready val => exact keeps_pure _
          | pending => exact (h.sleep interval).bind fun _ => ih

theorem invalidateCacheIf (condition : Bool) {key : CacheKey} (hkey : removable key) :
    Keeps P I (invalidateCacheIf condition key) := by
  cases condition with
  | true => exact h.invalidateCache key hkey
  | false => exact keeps_pure _

theorem checkAndInvalidateCache {key : CacheKey} (hkey : removable key) (result : SendReply) :
    Keeps P I (checkAndInvalidateCache key result) := by
  have hfor : ∀ errs, Keeps P I (invalidateCacheFor key errs) := by
    intro errs
    induction errs with
    | nil => exact keeps_pure _
    | cons err errs ih => exact (h.invalidateCacheIf _ hkey).bind fun _ => ih
  refine (h.invalidateCacheIf _ hkey).bind fun _ => ?_
  cases result with
  | error err => exact keeps_pure _
  | ok response => exact hfor (fetchTxErrs response)

theorem call (t : FunctionCallTransaction) (hok : ok t.signer) : Keeps P I (t.transact cr) :=
  (h.intoFuture _ hok).bind fun _ => keeps_pure _

theorem callAsync (t : FunctionCallTransaction) (hok : ok t.signer) :
    Keeps P I (t.transactAsync cr) := by
  unfold FunctionCallTransaction.transactAsync
  cases t.function.intoAction with
  | error err => exact keeps_pure _
  | ok action =>
      refine (h.sendTxAsync t.signer t.receiverId _ hok).bind fun result => ?_
      cases result <;> exact keeps_pure _

theorem batchAsync (t : BatchTransaction) (hok : ok t.signer) : Keeps P I (t.transactAsync cr) := by
  unfold BatchTransaction.transactAsync
  cases t.actions with
  | error err => exact keeps_pure _
  | ok actions =>
      refine (h.sendTxAsync t.signer t.receiverId actions hok).bind fun result => ?_
      cases result <;> exact keeps_pure _

theorem job {job : Job} (hjob : job.Within ok removable) : Keeps P I (job.task cr) := by
  cases job with
  | fetchNonce accountId publicKey => exact forget (h.fetchNonce accountId publicKey)
  | invalidateCache key => exact h.invalidateCache key (hjob.removes key rfl)
  | checkAndInvalidateCache key result =>
      exact h.checkAndInvalidateCache (hjob.removes key rfl) result
  | sendTx t => exact forget (h.intoFuture t (hjob.signs _ rfl))
  | sendTxAsync signer receiverId actions =>
      exact forget (h.sendTxAsync signer receiverId actions (hjob.signs _ rfl))
  | call t => exact forget (h.call t (hjob.signs _ rfl))
  | callAsync t => exact forget (h.callAsync t (hjob.signs _ rfl))
  | batch t => exact forget (h.intoFuture _ (hjob.signs _ rfl))
  | batchAsync t => exact forget (h.batchAsync t (hjob.signs _ rfl))
  | status s =>
      rw [Job.task, status_eq]
      exact forget ((h.tx s.senderId s.hash .included).bind fun _ => keeps_pure _)
  | wait s interval polls => exact forget (h.wait s interval polls)
  | waitUntil s level =>
      refine forget ((h.statusTxAsync s.senderId s.hash level).bind fun result => ?_)
      cases result <;> exact keeps_pure _

/-- A task that makes such calls follows the protocol. -/
theorem session {jobs : List Job} (hjobs : ∀ job ∈ jobs, job.Within ok removable) :
    Keeps P I (Job.session cr jobs) := by
  induction jobs with
  | nil => exact keeps_pure _
  | cons job jobs ih =>
      refine (h.job (hjobs job List.mem_cons_self)).bind fun _ => ?_
      exact ih fun job' hmem => hjobs job' (List.mem_cons_of_mem _ hmem)

end JobRule

/-! ### The discipline of the cache -/

theorem Disciplined.keeps {α : Type} {p : Task α} (hp : Disciplined p) :
    Keeps nonceProtocol (fun m => m = Phase.idle) p := by
  rintro m rfl
  exact hp

theorem jobs_disciplined (cr : Crypto) :
    JobRule cr nonceProtocol (fun m => m = Phase.idle) (fun _ => True) fun _ => True where
  fetchNonce accountId publicKey := (fetchNonce_follows accountId publicKey).keeps
  invalidateCache key _ := (invalidateCache_follows key).keeps
  sendTxOnce signer receiverId actions waitUntil _ :=
    (sendTxOnce_follows cr signer receiverId actions waitUntil).keeps
  sendTxAsync signer receiverId actions _ :=
    (sendTxAsync_follows cr signer receiverId actions).keeps
  sleep _ := by
    rintro m rfl
    exact ⟨trivial, fun _ => rfl⟩
  tx _ _ _ := by
    rintro m rfl
    exact ⟨trivial, fun _ => rfl⟩

theorem Job.session_disciplined (cr : Crypto) (jobs : List Job) :
    Disciplined (Job.session cr jobs) :=
  (jobs_disciplined cr).session (fun job _ => job.within_any) _ rfl

end NearFetch
