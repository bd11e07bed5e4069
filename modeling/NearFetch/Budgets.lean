import NearFetch.Costs
import NearFetch.RetryLoop
import NearFetch.Tasks

/-! # What calls may cost

`Prices` puts a price on every outward effect of the client: a query for an access key or for a block, a
submission, a status query, and each sleep by its length.  With all prices but one at zero the cost of a
path is a number of calls or a time.  Each call of the client has a budget that it keeps to on every path,
whatever is replied and whatever other tasks do (`Job.budget`, `Job.task_costs`): an attempt to send makes
one query and one submission, the retries make at most one attempt more than there are delays, and polling
sleeps between its polls.  So tasks that use a client stay below the sum of their budgets in every
interleaving (`jobs_spend_at_most`). -/

namespace NearFetch

open Effects

/-- The prices of the outward effects. -/
structure Prices where
  lookup : ℕ
  submit : ℕ
  status : ℕ
  sleep : ℕ → ℕ

namespace Prices

variable (w : Prices)

def cost : Op → ℕ
  | .rpc (.block _) => w.lookup
  | .rpc (.query _ _) => w.lookup
  | .rpc (.gasPrice _) => w.lookup
  | .rpc (.chunk _) => w.lookup
  | .rpc (.sendTx _ _) => w.submit
  | .rpc (.tx _ _ _) => w.status
  | .sleep millis => w.sleep millis
  | _ => 0

/-- The budget of an attempt to send a transaction. -/
def attempt : ℕ := w.lookup + w.submit

/-- The budget of attempts with these delays between them. -/
def retries (strategy : List ℕ) : ℕ :=
  (strategy.length + 1) * w.attempt + (strategy.map w.sleep).sum

/-- The budget of a transaction that is awaited. -/
def transaction (strategy : Option (List ℕ)) : ℕ := w.retries (strategy.getD [])

end Prices

/-- The budget of a call. -/
def Job.budget (w : Prices) : Job → ℕ
  | .fetchNonce _ _ => w.lookup
  | .invalidateCache _ => 0
  | .checkAndInvalidateCache _ _ => 0
  | .sendTx t => w.transaction t.strategy
  | .sendTxAsync _ _ _ => w.attempt
  | .call t => w.transaction t.retryStrategy
  | .callAsync _ => w.attempt
  | .batch t => w.transaction t.retryStrategy
  | .batchAsync _ => w.attempt
  | .status _ => w.status
  | .wait _ interval polls => polls * (w.status + w.sleep interval)
  | .waitUntil _ _ => w.status

/-! ### The parts -/

section parts

variable {w : Prices} {α : Type}

theorem Synchronous.free {p : Task α} (hp : Synchronous p) : CostAtMost w.cost 0 p := by
  refine Only.costAtMost (fun e he => ?_) hp
  cases e <;> first | rfl | cases he

theorem lockNonces_free (mode : FifoLock.Mode) : CostAtMost w.cost 0 (lockNonces mode) :=
  ⟨le_rfl, fun _ => ⟨le_rfl, fun _ => trivial⟩⟩

theorem dropGuard_free : CostAtMost w.cost 0 dropGuard := ⟨le_rfl, fun _ => trivial⟩

theorem viewBlock_costs : CostAtMost w.cost w.lookup viewBlock := by
  refine ⟨le_rfl, fun reply => ?_⟩
  cases reply <;> trivial

theorem accessKey_costs (accountId : AccountId) (publicKey : PublicKey) :
    CostAtMost w.cost w.lookup (accessKey accountId publicKey) := by
  refine ⟨le_rfl, fun reply => ?_⟩
  cases reply with
  | error err => trivial
  | ok resp =>
      obtain ⟨kind, hash, height⟩ := resp
      cases kind <;> trivial

theorem cachedNonce_costs (key : CacheKey) : CostAtMost w.cost w.lookup (cachedNonce key) := by
  refine ⟨Nat.zero_le _, fun nonce => viewBlock_costs.bind_free fun block => ?_⟩
  cases block <;> trivial

theorem fetchNonce_costs (accountId : AccountId) (publicKey : PublicKey) :
    CostAtMost w.cost w.lookup (fetchNonce accountId publicKey) := by
  have hcached : CostAtMost w.cost w.lookup (do
      let result ← cachedNonce (accountId, publicKey)
      dropGuard
      return result) :=
    (cachedNonce_costs _).bind_free fun _ => dropGuard_free.bind_free fun _ => trivial
  refine CostAtMost.bind_free ?_ fun result => ⟨le_rfl, fun _ => trivial⟩
  refine (lockNonces_free .read).free_bind fun _ => ⟨Nat.zero_le _, fun found => ?_⟩
  cases found with
  | true => exact hcached
  | false =>
      refine dropGuard_free.free_bind fun _ => (lockNonces_free .write).free_bind fun _ =>
        ⟨Nat.zero_le _, fun found => ?_⟩
      cases found with
      | true => exact hcached
      | false =>
          refine (accessKey_costs accountId publicKey).bind_free fun result => ?_
          cases result with
          | error err => exact dropGuard_free.bind_free fun _ => trivial
          | ok v => exact ⟨le_rfl, fun _ => dropGuard_free.bind_free fun _ => trivial⟩

theorem invalidateCache_free (key : CacheKey) : CostAtMost w.cost 0 (invalidateCache key) :=
  (lockNonces_free .write).bind_free fun _ => ⟨le_rfl, fun _ => dropGuard_free⟩

theorem invalidateCacheIf_free (condition : Bool) (key : CacheKey) :
    CostAtMost w.cost 0 (invalidateCacheIf condition key) := by
  cases condition with
  | true => exact invalidateCache_free key
  | false => trivial

theorem checkAndInvalidateCache_free (key : CacheKey) (result : SendReply) :
    CostAtMost w.cost 0 (checkAndInvalidateCache key result) := by
  have hfor : ∀ errs, CostAtMost w.cost 0 (invalidateCacheFor key errs) := by
    intro errs
    induction errs with
    | nil => trivial
    | cons err errs ih => exact (invalidateCacheIf_free _ key).bind_free fun _ => ih
  refine (invalidateCacheIf_free _ key).bind_free fun _ => ?_
  cases result with
  | error err => trivial
  | ok response => exact hfor (fetchTxErrs response)

/-! ### Sending -/

theorem signTx_costs (cr : Crypto) (signer : SignerExt) (receiverId : AccountId)
    (actions : List Action) :
    CostAtMost w.cost w.lookup (signTx cr signer receiverId actions) := by
  refine (Synchronous.free signer.publicKey_sync).free_bind fun pk =>
    (Synchronous.free signer.accountId_sync).free_bind fun accountId =>
      (fetchNonce_costs accountId pk).bind_free fun fetched => ?_
  cases fetched with
  | error err => trivial
  | ok v =>
      exact (Synchronous.free signer.accountId_sync).bind_free fun _ =>
        (Synchronous.free (signer.sign_sync _)).bind_free fun _ => trivial

theorem sendWith_costs (cr : Crypto) (signer : SignerExt) (receiverId : AccountId)
    (actions : List Action) (waitUntil : TxExecutionStatus)
    {invalidate : CacheKey → SendReply → Task Unit}
    (hinvalidate : ∀ key reply, CostAtMost w.cost 0 (invalidate key reply))
    (result : SignedTransaction → SendReply → Result α) :
    CostAtMost w.cost w.attempt
      (sendWith cr signer receiverId actions waitUntil invalidate result) := by
  have hread : CostAtMost w.cost 0 (readKey signer) :=
    (Synchronous.free signer.accountId_sync).bind_free fun _ =>
      (Synchronous.free signer.publicKey_sync).bind_free fun _ => trivial
  refine hread.free_bind fun key =>
    (signTx_costs cr signer receiverId actions).bind fun signed => ?_
  cases signed with
  | error err => trivial
  | ok stx =>
      have hsend : CostAtMost w.cost w.submit (effect (.rpc (.sendTx stx waitUntil))) :=
        costAtMost_perform _
      exact hsend.bind_free fun reply => (hinvalidate key reply).bind_free fun _ => trivial

theorem sendTxOnce_costs (cr : Crypto) (signer : SignerExt) (receiverId : AccountId)
    (actions : List Action) (waitUntil : TxExecutionStatus) :
    CostAtMost w.cost w.attempt (sendTxOnce cr signer receiverId actions waitUntil) := by
  rw [sendTxOnce_eq]
  exact sendWith_costs cr signer receiverId actions waitUntil checkAndInvalidateCache_free _

theorem sendTxAsync_costs (cr : Crypto) (signer : SignerExt) (receiverId : AccountId)
    (actions : List Action) :
    CostAtMost w.cost w.attempt (sendTxAsync cr signer receiverId actions) := by
  rw [sendTxAsync_eq]
  exact sendWith_costs cr signer receiverId actions .none
    (fun key _ => invalidateCacheIf_free _ key) _

/-- Retries pay for one attempt more than there are delays, and for the delays. -/
theorem retryStart_costs {action : Task (Result α)} (haction : CostAtMost w.cost w.attempt action)
    (strategy : List ℕ) : CostAtMost w.cost (w.retries strategy) (retryStart strategy action) := by
  induction strategy with
  | nil =>
      have hone : w.retries [] = w.attempt := by simp [Prices.retries]
      rw [hone]
      exact haction
  | cons delay strategy ih =>
      have hsum : w.retries (delay :: strategy) =
          w.attempt + (w.sleep delay + w.retries strategy) := by
        simp only [Prices.retries, List.length_cons, List.map_cons, List.sum_cons, Nat.add_mul,
          Nat.one_mul]
        omega
      rw [hsum]
      refine haction.bind fun result => ?_
      cases result with
      | ok a => trivial
      | error err =>
          have hsleep : CostAtMost w.cost (w.sleep delay) (effect (.sleep delay)) :=
            costAtMost_perform _
          exact hsleep.bind fun _ => ih

theorem intoFuture_costs (cr : Crypto) (t : RetryableTransaction) :
    CostAtMost w.cost (w.transaction t.strategy) (t.intoFuture cr) := by
  unfold RetryableTransaction.intoFuture
  cases t.actions with
  | error err => trivial
  | ok actions =>
      have honce := sendTxOnce_costs (w := w) cr t.signer t.receiverId actions t.waitUntil
      cases hstrategy : t.strategy with
      | some strategy => exact retryStart_costs honce strategy
      | none => exact retryStart_costs honce []

/-! ### Asking for the status -/

theorem statusTxAsync_costs (senderId : AccountId) (hash : CryptoHash) (level : TxExecutionStatus) :
    CostAtMost w.cost w.status (statusTxAsync senderId hash level) := by
  have hask : CostAtMost w.cost w.status (effect (.rpc (.tx senderId hash level))) :=
    costAtMost_perform _
  refine hask.bind_free fun reply => ?_
  cases reply with
  | error err => trivial
  | ok response =>
      obtain ⟨outcome, status⟩ := response
      cases status <;> cases outcome <;> trivial

theorem wait_costs (h : AsyncTransactionStatus) (interval polls : ℕ) :
    CostAtMost w.cost (polls * (w.status + w.sleep interval)) (h.wait interval polls) := by
  induction polls with
  | zero => trivial
  | succ polls ih =>
      have hsum : (polls + 1) * (w.status + w.sleep interval) =
          w.status + (w.sleep interval + polls * (w.status + w.sleep interval)) := by
        rw [Nat.add_mul, Nat.one_mul]
        omega
      have hask : CostAtMost w.cost w.status (effect (.rpc (.tx h.senderId h.hash .included))) :=
        costAtMost_perform _
      rw [wait_succ, hsum]
      refine hask.bind fun reply => ?_
      cases StatusReply.poll reply with
      | error err => trivial
      | ok poll =>
          cases poll with
          | ready val => trivial
          | pending =>
              have hsleep : CostAtMost w.cost (w.sleep interval) (effect (.sleep interval)) :=
                costAtMost_perform _
              exact hsleep.bind fun _ => ih

end parts

/-- The budget of exponential retries, whose random factor only shortens delays. -/
theorem retries_exponential_le (w : Prices) (hsleep : Monotone w.sleep) (base retries : ℕ)
    {jitter : ℕ → ℕ → ℕ} (hjitter : ∀ i delay, jitter i delay ≤ delay) :
    w.retries (exponentialDelays base retries jitter) ≤
      (retries + 1) * w.attempt + ((List.range retries).map fun i => w.sleep (base ^ (i + 1))).sum := by
  have hsum : ((exponentialDelays base retries jitter).map w.sleep).sum ≤
      ((List.range retries).map fun i => w.sleep (base ^ (i + 1))).sum := by
    rw [exponentialDelays, List.map_map]
    exact List.sum_le_sum fun i _ => hsleep ((hjitter i _).trans (min_le_left _ _))
  have hlength : (exponentialDelays base retries jitter).length = retries := by
    rw [exponentialDelays, List.length_map, List.length_range]
  rw [Prices.retries, hlength]
  omega

/-! ### Calls and sessions -/

section sessions

variable {w : Prices} (cr : Crypto)

theorem forget_costs {α : Type} {n : ℕ} {p : Task α} (hp : CostAtMost w.cost n p) :
    CostAtMost w.cost n (forget p) := hp.bind_free fun _ => trivial

theorem Job.task_costs (job : Job) : CostAtMost w.cost (job.budget w) (job.task cr) := by
  cases job with
  | fetchNonce accountId publicKey => exact forget_costs (fetchNonce_costs accountId publicKey)
  | invalidateCache key => exact invalidateCache_free key
  | checkAndInvalidateCache key result => exact checkAndInvalidateCache_free key result
  | sendTx t => exact forget_costs (intoFuture_costs cr t)
  | sendTxAsync signer receiverId actions =>
      exact forget_costs (sendTxAsync_costs cr signer receiverId actions)
  | call t =>
      have htransact : CostAtMost w.cost (w.transaction t.retryStrategy) (t.transact cr) :=
        (intoFuture_costs cr ⟨t.signer, t.receiverId,
          t.function.intoAction.map fun action => [.functionCall action], t.retryStrategy,
          t.waitUntil⟩).bind_free fun _ => costAtMost_pure _ _
      exact forget_costs htransact
  | callAsync t =>
      refine forget_costs ?_
      unfold FunctionCallTransaction.transactAsync
      cases t.function.intoAction with
      | error err => trivial
      | ok action =>
          refine (sendTxAsync_costs cr t.signer t.receiverId _).bind_free fun result => ?_
          cases result <;> trivial
  | batch t =>
      have htransact : CostAtMost w.cost (w.transaction t.retryStrategy) (t.transact cr) :=
        intoFuture_costs cr ⟨t.signer, t.receiverId, t.actions, t.retryStrategy, t.waitUntil⟩
      exact forget_costs htransact
  | batchAsync t =>
      refine forget_costs ?_
      unfold BatchTransaction.transactAsync
      cases t.actions with
      | error err => trivial
      | ok actions =>
          refine (sendTxAsync_costs cr t.signer t.receiverId actions).bind_free fun result => ?_
          cases result <;> trivial
  | status s =>
      have hask : CostAtMost w.cost w.status (effect (.rpc (.tx s.senderId s.hash .included))) :=
        costAtMost_perform _
      rw [Job.task, status_eq]
      exact forget_costs (hask.bind_free fun _ => trivial)
  | wait s interval polls => exact forget_costs (wait_costs s interval polls)
  | waitUntil s level =>
      refine forget_costs ((statusTxAsync_costs s.senderId s.hash level).bind_free fun result => ?_)
      cases result <;> trivial

theorem Job.session_costs (jobs : List Job) :
    CostAtMost w.cost (jobs.map (Job.budget w)).sum (Job.session cr jobs) := by
  induction jobs with
  | nil => trivial
  | cons job jobs ih =>
      rw [List.map_cons, List.sum_cons]
      exact (job.task_costs cr).bind fun _ => ih

/-- Tasks that use one client: in every interleaving, with whatever replies and drops, what was spent up to
any point is at most the sum of the budgets of their calls. -/
theorem jobs_spend_at_most {ι W A : Type} [DecidableEq ι] [Fintype ι] {width : ℕ} {ep : Endpoint W A}
    (w : Prices) (jobs : ι → List Job) {s₀ : Shared ι W} {tr : List (Event ι Op Op.Reply)}
    {c : Config ι (Shared ι W) Op Op.Reply Unit}
    (h : Run (machine width ep) (.start s₀ fun t => Job.session cr (jobs t)) tr c) :
    (tr.map fun ev => w.cost ev.act.effect).sum ≤ ∑ t, ((jobs t).map (Job.budget w)).sum :=
  h.total_le fun t => Job.session_costs cr (jobs t)

end sessions

section exhausted

/-- One task transfers with a retry while another draws a nonce. -/
def budgetedJobs (transfers : Bool) : List Job :=
  if transfers then [.sendTx transferOnce] else [.fetchNonce ⟨"alice.near"⟩ ⟨[1]⟩]

/-- Both submissions time out. -/
def exhausting {A : Type} : List (Move Bool A Op Op.Reply) :=
  List.replicate 21 (.act true (timedOut.replies 0)) ++
    List.replicate 7 (.act false (timedOut.replies 0))

/-- A price for each kind of effect, and the time of the sleeps. -/
def plainPrices : Prices := ⟨1, 10, 1000, id⟩

theorem jobs_spend_at_most_exhausting :
    ∃ tr c, Run (machine 64 anyEndpoint)
        (.start ⟨fun _ => 0, fun _ => none, .free, ()⟩ fun t =>
          Job.session .transparent (budgetedJobs t)) tr c ∧
      (tr.map fun ev => plainPrices.cost ev.act.effect).sum = 123 ∧
      123 ≤ ∑ t, ((budgetedJobs t).map (Job.budget plainPrices)).sum := by
  have hexec : ∃ tr c, (machine 64 anyEndpoint).exec []
      (.start ⟨fun _ => 0, fun _ => none, .free, ()⟩ fun t =>
        Job.session .transparent (budgetedJobs t)) exhausting = some (tr, c) ∧
      (tr.map fun ev => plainPrices.cost ev.act.effect).sum = 123 :=
    ⟨_, _, rfl, rfl⟩
  obtain ⟨tr, c, hexec, hsum⟩ := hexec
  have hrun := Run.start.exec hexec
  refine ⟨tr, c, hrun, hsum, ?_⟩
  have hle := jobs_spend_at_most .transparent plainPrices budgetedJobs hrun
  rwa [hsum] at hle

end exhausted

end NearFetch
