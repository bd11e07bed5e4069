import Mathlib.Data.List.Induction
import NearFetch.CacheLookup
import NearFetch.Submissions
import NearFetch.Tasks

/-! # The block that a transaction is built on

A transaction names the hash of a recent block, and the block of the previous one will not do for it.
`blockProtocol` keeps what the last query of a task reported, until the task submits something: a submission
names that block and uses it up, whatever signers and calls the task uses and however often a transaction is
tried again.  So between any two submissions of a task there is a query of its own.

At an endpoint that answers with its latest block (`AnswersLatest`), each transaction is therefore built on
a block that was the latest at some moment since the task's previous submission (`built_on_latest`). -/

namespace NearFetch

open Effects FifoLock

/-- The block hash in the reply to a query. -/
def reportedBlock : (e : Op) → e.Reply → Option CryptoHash
  | .rpc (.block _), reply => (Except.toOption reply).map fun block : BlockView => block.header.hash
  | .rpc (.query _ _), reply => (Except.toOption reply).map RpcQueryResponse.blockHash
  | _, _ => none

/-- A transaction names the block that the last query of the task reported, which asked for the latest one and
was made after the previous submission. -/
abbrev blockProtocol : Protocol Op Op.Reply where
  State := Option CryptoHash
  next
    | _, .rpc (.sendTx _ _), _ => none
    | _, .rpc (.block reference), reply => reportedBlock (.rpc (.block reference)) reply
    | _, .rpc (.query reference request), reply =>
        reportedBlock (.rpc (.query reference request)) reply
    | st, _, _ => st
  allowed
    | st, .rpc (.sendTx stx _) => st = some stx.transaction.blockHash
    | _, .rpc (.block reference) => reference = .latest
    | _, .rpc (.query reference _) => reference = .latest
    | _, _ => True
  mayPanic _ := True

/-- Queries and submissions. -/
def Op.isChainCall : Op → Bool
  | .rpc (.tx _ _ _) => false
  | .rpc _ => true
  | _ => false

section follows

variable {α : Type} {st : Option CryptoHash}

theorem block_still {p : Task α} (hp : Only (fun e => e.isChainCall = false) p) :
    Follows blockProtocol (fun _ st' => st' = st) st p := by
  refine Only.follows ?_ trivial hp
  intro e he
  cases e with
  | rpc call => cases call <;> first | exact ⟨trivial, fun _ => rfl⟩ | cases he
  | _ => exact ⟨trivial, fun _ => rfl⟩

theorem Synchronous.block {p : Task α} (hp : Synchronous p) :
    Follows blockProtocol (fun _ st' => st' = st) st p := by
  apply block_still
  apply hp.mono
  intro e he
  cases e <;> first | rfl | cases he

theorem block_unmoved : Unmoved blockProtocol where
  allowed st e he := by
    cases e <;> trivial
  next st e r he := by
    cases e <;> first | rfl | cases he

/-- What a call of `fetch_nonce` returned is what its last query reported. -/
def NamesBlock (result : Result (Nonce × CryptoHash × BlockHeight)) (st : Option CryptoHash) : Prop :=
  ∀ nonce hash height, result = .ok (nonce, hash, height) → st = some hash

theorem cachedNonce_block (key : CacheKey) :
    Follows blockProtocol NamesBlock st (cachedNonce key) := by
  refine ⟨trivial, fun n => ⟨rfl, fun reply => ?_⟩⟩
  cases reply with
  | error err =>
      intro nonce hash height h
      cases h
  | ok block =>
      intro nonce hash height h
      cases h
      rfl

theorem accessKey_block (accountId : AccountId) (publicKey : PublicKey) :
    Follows blockProtocol (fun result st' => ∀ view hash height, result = .ok (view, hash, height) →
      st' = some hash) st (accessKey accountId publicKey) := by
  refine ⟨rfl, fun reply => ?_⟩
  cases reply with
  | error err =>
      intro view hash height h
      cases h
  | ok resp =>
      obtain ⟨kind, blockHash, blockHeight⟩ := resp
      cases kind with
      | accessKey view' =>
          intro view hash height h
          cases h
          rfl
      | _ =>
          intro view hash height h
          cases h

theorem fetchNonce_block (accountId : AccountId) (publicKey : PublicKey) :
    Follows blockProtocol NamesBlock st (fetchNonce accountId publicKey) := by
  apply fetchNonce_frame block_unmoved (cachedNonce_block _)
  apply (accessKey_block accountId publicKey).mono
  intro result st' hresult
  cases result with
  | error err =>
      intro nonce hash height h
      cases h
  | ok x =>
      obtain ⟨view, hash, height⟩ := x
      refine ⟨trivial, ?_⟩
      intro nonce hash' height' h
      cases h
      exact hresult view hash height rfl

theorem invalidateCache_block (key : CacheKey) :
    Follows blockProtocol (fun _ st' => st' = st) st (invalidateCache key) :=
  ⟨trivial, fun _ => ⟨trivial, fun _ => ⟨trivial, fun _ => ⟨trivial, fun _ => rfl⟩⟩⟩⟩

variable (cr : Crypto) (signer : SignerExt) (receiverId : AccountId) (actions : List Action)

theorem signTx_block :
    Follows blockProtocol
      (fun result st' => ∀ stx, result = .ok stx → st' = some stx.transaction.blockHash) st
      (signTx cr signer receiverId actions) := by
  unfold signTx
  apply signer.publicKey_sync.block.bind
  rintro pk _ rfl
  apply signer.accountId_sync.block.bind
  rintro accountId _ rfl
  apply (fetchNonce_block accountId pk).bind
  intro result st' hresult
  cases result with
  | error err =>
      intro stx hstx
      cases hstx
  | ok x =>
      obtain ⟨nonce, hash, height⟩ := x
      have hst : st' = some hash := hresult nonce hash height rfl
      apply signer.accountId_sync.block.bind
      rintro signerId _ rfl
      apply (signer.sign_sync _).block.bind
      rintro signature _ rfl
      intro stx hstx
      cases hstx
      exact hst

theorem sendWith_block (waitUntil : TxExecutionStatus)
    {invalidate : CacheKey → SendReply → Task Unit} (hinvalidate : Invalidates invalidate)
    (result : SignedTransaction → SendReply → Result α) :
    Follows blockProtocol (fun _ _ => True) st
      (sendWith cr signer receiverId actions waitUntil invalidate result) := by
  apply sendWith_frame (K := fun _ _ => True)
    (S := fun _ signed st' => ∀ stx, signed = .ok stx → st' = some stx.transaction.blockHash)
  · apply signer.accountId_sync.block.bind
    rintro accountId _ rfl
    apply signer.publicKey_sync.block.bind
    rintro publicKey _ rfl
    trivial
  · intro key st' _
    exact signTx_block cr signer receiverId actions
  · intro key err st' _
    trivial
  · intro key stx st' hst
    refine ⟨hst stx rfl, fun reply => ?_⟩
    exact (hinvalidate _ _ key reply (invalidateCache_block key)).mono fun _ _ _ => trivial

end follows

theorem block_rule (cr : Crypto) :
    JobRule cr blockProtocol (fun _ => True) (fun _ => True) fun _ => True where
  fetchNonce accountId publicKey _ _ :=
    (fetchNonce_block accountId publicKey).mono fun _ _ _ => trivial
  invalidateCache key _ _ _ := (invalidateCache_block key).mono fun _ _ _ => trivial
  sendTxOnce signer receiverId actions waitUntil _ _ _ := by
    rw [sendTxOnce_eq]
    exact sendWith_block cr _ _ _ _ checkAndInvalidateCache_invalidates _
  sendTxAsync signer receiverId actions _ _ _ := by
    rw [sendTxAsync_eq]
    exact sendWith_block cr _ _ _ _ (invalidateCacheIf_invalidates _) _
  sleep _ _ _ := ⟨trivial, fun _ => trivial⟩
  tx _ _ _ _ _ := ⟨trivial, fun _ => trivial⟩

/-- What a task has at hand was reported to it, and it has submitted nothing since. -/
theorem block_reported {l : List (Act Op Op.Reply)} {hash : CryptoHash}
    (h : blockProtocol.after none l = some hash) :
    ∃ l₁ a l₂, l = l₁ ++ a :: l₂ ∧ reportedBlock a.effect a.reply = some hash ∧
      submissions l₂ = [] := by
  induction l using List.reverseRecOn with
  | nil => cases h
  | append_singleton l a ih =>
      rw [Protocol.after_append] at h
      by_cases hreport : reportedBlock a.effect a.reply = some hash
      · exact ⟨l, a, [], rfl, hreport, rfl⟩
      · have hsame : blockProtocol.after none l = some hash ∧ a.effect.submission = none := by
          obtain ⟨e, r⟩ := a
          cases e with
          | rpc call =>
              cases call with
              | sendTx stx level => cases h
              | block reference => exact absurd h hreport
              | query reference request => exact absurd h hreport
              | _ => exact ⟨h, rfl⟩
          | _ => exact ⟨h, rfl⟩
        obtain ⟨l₁, b, l₂, rfl, hb, hl₂⟩ := ih hsame.1
        refine ⟨l₁, b, l₂ ++ [a], by simp, hb, ?_⟩
        rw [submissions_append, hl₂, List.nil_append]
        exact List.filterMap_cons_none hsame.2

/-! ### The latest block of an endpoint -/

/-- Every successful query for the latest block or for the latest state is answered from the block `head`. -/
structure AnswersLatest {W A : Type} (ep : Endpoint W A) (head : W → CryptoHash) : Prop where
  block : ∀ {e e' block}, ep.serve e (.block .latest) (.ok block) = some e' →
    block.header.hash = head e
  query : ∀ {e e' request resp}, ep.serve e (.query .latest request) (.ok resp) = some e' →
    resp.blockHash = head e

section runs

variable {ι W A : Type} [DecidableEq ι] {w : ℕ} {ep : Endpoint W A} {head : W → CryptoHash}

/-- The reply to a query of a task reports the block that was the latest when it was answered. -/
theorem AnswersLatest.reported (hlatest : AnswersLatest ep head) {st : Option CryptoHash} {t : ι} {e : Op}
    {ans : Option e.Reply} {r : e.Reply} {s s' : Shared ι W} {hash : CryptoHash}
    (hallowed : blockProtocol.allowed st e) (h : perform w ep t e ans s = some (r, s'))
    (hreport : reportedBlock e r = some hash) : head s.endpoint = hash := by
  cases e with
  | rpc call =>
      obtain ⟨e', hserve, -⟩ := perform_rpc h
      cases call with
      | block reference =>
          obtain rfl : reference = .latest := hallowed
          cases r with
          | error err => cases hreport
          | ok block =>
              cases hreport
              exact (hlatest.block hserve).symm
      | query reference request =>
          obtain rfl : reference = .latest := hallowed
          cases r with
          | error err => cases hreport
          | ok resp =>
              cases hreport
              exact (hlatest.query hserve).symm
      | _ => cases hreport
  | _ => cases hreport

variable {jobs : ι → List Job} {s₀ : Shared ι W} {tr : List (Event ι Op Op.Reply)}
  {c : Config ι (Shared ι W) Op Op.Reply Unit}

/-- Tasks that use one client in any way, with any signers: every transaction is built on a block that was the
latest at a moment at which its task made a query, after it had submitted its previous transaction. -/
theorem built_on_latest (cr : Crypto) (hlatest : AnswersLatest ep head)
    (h : Run (machine w ep) (.start s₀ fun t => Job.session cr (jobs t)) tr c)
    {pre post : List (Event ι Op Op.Reply)} {t : ι} {stx : SignedTransaction}
    {level : TxExecutionStatus} {reply : SendReply}
    (htr : tr = pre ++ ⟨t, ⟨.rpc (.sendTx stx level), reply⟩⟩ :: post) :
    ∃ before a after c₁, pre = before ++ ⟨t, a⟩ :: after ∧ submissions (acts t after) = [] ∧
      reportedBlock a.effect a.reply = some stx.transaction.blockHash ∧
      Run (machine w ep) (.start s₀ fun t => Job.session cr (jobs t)) before c₁ ∧
      head c₁.shared.endpoint = stx.transaction.blockHash := by
  have hf : ∀ t, Follows blockProtocol (fun _ _ => True) none (Job.session cr (jobs t)) := fun t =>
    (block_rule cr).session (fun _ _ => ⟨fun _ _ => trivial, fun _ _ => trivial⟩) none trivial
  subst htr
  have hat : blockProtocol.after none (acts t pre) = some stx.transaction.blockHash :=
    (h.obeys_event hf).2.1
  obtain ⟨l₁, a, l₂, hl, hreport, hl₂⟩ := block_reported hat
  obtain ⟨before, after, rfl, -, hafter⟩ := acts_eq_append hl
  rw [List.append_assoc, List.cons_append] at h
  obtain ⟨c₁, k, ans, s, hrun, -, hperform, -⟩ := h.split
  refine ⟨before, a, after, c₁, rfl, hafter ▸ hl₂, hreport, hrun, ?_⟩
  exact hlatest.reported (h.obeys_event hf).2.1 hperform hreport

end runs

/-! ### A chain that moves on -/

/-- An endpoint that answers from its latest block, whose hash is the height; the chain moves on by itself. -/
def growingChain : Endpoint UInt8 Unit where
  serve
    | n, .block _, .ok block => if block.header.hash = ⟨[n]⟩ then some n else none
    | n, .query _ _, .ok resp => if resp.blockHash = ⟨[n]⟩ then some n else none
    | n, _, _ => some n
  drift _ n := n + 1

theorem growingChain_answersLatest : AnswersLatest growingChain fun n => ⟨[n]⟩ where
  block h := (Option.ite_none_right_eq_some.mp h).1
  query h := (Option.ite_none_right_eq_some.mp h).1

/-- Replies from the block at height `n`. -/
def repliesFrom (n : UInt8) : (e : Op) → Option e.Reply :=
  replies fun call => match call with
    | .block _ => .ok ⟨⟨⟨[n]⟩, n.toNat⟩⟩
    | .query _ _ => .ok ⟨.accessKey ⟨0, .fullAccess⟩, ⟨[n]⟩, n.toNat⟩
    | .gasPrice _ => .error (.transportError "closed")
    | .chunk _ => .error (.transportError "closed")
    | .sendTx _ level => .ok ⟨none, level⟩
    | .tx _ _ _ => .error (.transportError "closed")

/-- Two transactions of one task. -/
def twoTransfers : List Job := List.replicate 2
  (.sendTxAsync (InMemorySigner.ext .transparent ⟨⟨"alice.near"⟩, ⟨[1]⟩, ⟨[1]⟩⟩) ⟨"bob.near"⟩
    [.transfer 1])

/-- The second transaction is built on a later block than the first, and not on the one that is the latest
when it is sent. -/
theorem built_on_latest_growing :
    ∃ tr c, Run (machine 64 growingChain)
        (.start ⟨fun _ => 0, fun _ => none, .free, 7⟩ fun _ : Unit =>
          Job.session .transparent twoTransfers) tr c ∧
      c.shared.endpoint = 9 ∧
      ∃ pre post stx reply, tr = pre ++ ⟨(), ⟨.rpc (.sendTx stx .none), reply⟩⟩ :: post ∧
        stx.transaction.blockHash = ⟨[8]⟩ ∧
        ∃ before a after c₁, pre = before ++ ⟨(), a⟩ :: after ∧ submissions (acts () after) = [] ∧
          reportedBlock a.effect a.reply = some stx.transaction.blockHash ∧
          Run (machine 64 growingChain)
            (.start ⟨fun _ => 0, fun _ => none, .free, 7⟩ fun _ : Unit =>
              Job.session .transparent twoTransfers) before c₁ ∧
          (⟨[c₁.shared.endpoint]⟩ : CryptoHash) = stx.transaction.blockHash := by
  have hexec : ∃ tr c stx reply, (machine 64 growingChain).exec []
      (.start ⟨fun _ => 0, fun _ => none, .free, 7⟩ fun _ : Unit =>
        Job.session .transparent twoTransfers)
      (List.replicate 12 (.act () (repliesFrom 7)) ++ [.ambient ()] ++
        List.replicate 5 (.act () (repliesFrom 8)) ++ [.ambient ()] ++
        List.replicate 3 (.act () (repliesFrom 9))) = some (tr, c) ∧
      c.shared.endpoint = 9 ∧
      tr = tr.take 19 ++ ⟨(), ⟨.rpc (.sendTx stx .none), reply⟩⟩ :: [] ∧
      stx.transaction.blockHash = ⟨[8]⟩ :=
    ⟨_, _, _, _, rfl, rfl, rfl, rfl⟩
  obtain ⟨tr, c, stx, reply, hexec, hhead, htr, hhash⟩ := hexec
  have hrun := Run.start.exec hexec
  exact ⟨tr, c, hrun, hhead, tr.take 19, [], stx, reply, htr, hhash,
    built_on_latest .transparent growingChain_answersLatest hrun htr⟩

end NearFetch
