import NearFetch.Operations
import NearFetch.CacheLookup
import NearFetch.SendPaths

/-! # What is sent

A transaction leaves the client through one effect, and `submissions` lists the transactions that a
path sends.  Most of the client sends nothing: `Offline` programs make no RPC call at all, `Silent`
ones may make queries.  Signing a transaction is silent, so what `send_tx_once` and `send_tx_async`
do between two submissions is invisible to every protocol that only submissions move
(`Only.follows`). -/

namespace NearFetch

open Effects

/-- The transaction that the effect submits. -/
def Op.submission : Op → Option SignedTransaction
  | .rpc (.sendTx stx _) => some stx
  | _ => none

/-- The effect is an RPC call. -/
def Op.isRpc : Op → Bool
  | .rpc _ => true
  | _ => false

/-- The transactions that a path sends, oldest first. -/
def submissions (l : List (Act Op Op.Reply)) : List SignedTransaction :=
  l.filterMap fun a => a.effect.submission

@[simp] theorem submissions_append (l₁ l₂ : List (Act Op Op.Reply)) :
    submissions (l₁ ++ l₂) = submissions l₁ ++ submissions l₂ := List.filterMap_append

@[simp] theorem submissions_sendTx (stx : SignedTransaction) (waitUntil : TxExecutionStatus)
    (reply : SendReply) (l : List (Act Op Op.Reply)) :
    submissions (⟨.rpc (.sendTx stx waitUntil), reply⟩ :: l) = stx :: submissions l := rfl

/-- The program makes no RPC call. -/
abbrev Offline {α : Type} (p : Task α) : Prop := Only (fun e => e.isRpc = false) p

/-- The program sends no transaction. -/
abbrev Silent {α : Type} (p : Task α) : Prop := Only (fun e => e.submission = none) p

section silent

variable {α : Type}

theorem Synchronous.offline {p : Task α} (hp : Synchronous p) : Offline p := by
  apply hp.mono
  intro e he
  cases e <;> first | rfl | cases he

theorem Offline.silent {p : Task α} (hp : Offline p) : Silent p := by
  apply hp.mono
  intro e he
  cases e <;> first | rfl | cases he

theorem Silent.submissions {p : Task α} (hp : Silent p) {l : List (Act Op Op.Reply)} {a : α}
    (h : Returns p l a) : submissions l = [] := by
  rw [NearFetch.submissions, List.filterMap_eq_nil_iff]
  exact (hp.leads h).1

theorem invalidateCache_offline (key : CacheKey) : Offline (invalidateCache key) :=
  ⟨rfl, fun _ => ⟨rfl, fun _ => ⟨rfl, fun _ => ⟨rfl, fun _ => trivial⟩⟩⟩⟩

theorem Invalidates.offline {invalidate : CacheKey → SendReply → Task Unit}
    (h : Invalidates invalidate) (key : CacheKey) (reply : SendReply) :
    Offline (invalidate key reply) := h.only (invalidateCache_offline key) reply

/-- The protocol that allows no submission. -/
abbrev silentProtocol : Protocol Op Op.Reply where
  State := Unit
  next _ _ _ := ()
  allowed _ e := e.submission = none
  mayPanic _ := True

theorem silent_unmoved : Unmoved silentProtocol where
  allowed _ e he := by
    cases e <;> first | rfl | cases he
  next _ _ _ _ := rfl

theorem fetchNonce_silent (accountId : AccountId) (publicKey : PublicKey) :
    Silent (fetchNonce accountId publicKey) := by
  have hfol : Follows silentProtocol (fun _ _ => True) () (fetchNonce accountId publicKey) := by
    apply fetchNonce_frame silent_unmoved
    · refine ⟨rfl, fun n => ⟨rfl, fun reply => ?_⟩⟩
      cases reply <;> trivial
    · refine ⟨rfl, fun reply => ?_⟩
      cases reply with
      | error err => trivial
      | ok resp =>
          obtain ⟨kind, blockHash, blockHeight⟩ := resp
          cases kind with
          | accessKey view => exact ⟨rfl, trivial⟩
          | _ => trivial
  exact hfol.only fun _ _ he => he

variable (cr : Crypto) (signer : SignerExt) (receiverId : AccountId) (actions : List Action)

theorem readKey_offline : Offline (readKey signer) := by
  refine signer.accountId_sync.offline.bind fun accountId => ?_
  exact signer.publicKey_sync.offline.bind fun publicKey => trivial

theorem signTx_silent : Silent (signTx cr signer receiverId actions) := by
  unfold signTx
  refine signer.publicKey_sync.offline.silent.bind fun pk => ?_
  refine signer.accountId_sync.offline.silent.bind fun accountId => ?_
  refine (fetchNonce_silent accountId pk).bind fun result => ?_
  cases result with
  | error err => trivial
  | ok x =>
      refine signer.accountId_sync.offline.silent.bind fun signerId => ?_
      exact (signer.sign_sync _).offline.silent.bind fun _ => trivial

/-- What `sign_tx` puts into the transaction, and where it read the account. -/
theorem signTx_returns {l : List (Act Op Op.Reply)} {stx : SignedTransaction}
    (h : Returns (signTx cr signer receiverId actions) l (.ok stx)) :
    stx.transaction.receiverId = receiverId ∧ stx.transaction.actions = actions ∧
      ∃ l₁ la l₂, l = l₁ ++ la ++ l₂ ∧ Returns signer.accountId la stx.transaction.signerId := by
  unfold signTx at h
  obtain ⟨pk, l₁, m₁, rfl, -, h⟩ := returns_bind.mp h
  obtain ⟨accountId, l₂, m₂, rfl, -, h⟩ := returns_bind.mp h
  obtain ⟨result, l₃, m₃, rfl, -, h⟩ := returns_bind.mp h
  cases result with
  | error err =>
      obtain ⟨-, hres⟩ := returns_pure.mp h
      cases hres
  | ok x =>
      obtain ⟨signerId, la, m₄, rfl, ha, h⟩ := returns_bind.mp h
      obtain ⟨signature, l₅, m₅, rfl, -, h⟩ := returns_bind.mp h
      obtain ⟨rfl, hres⟩ := returns_pure.mp h
      cases hres
      exact ⟨rfl, rfl, l₁ ++ (l₂ ++ l₃), la, l₅, by simp, ha⟩

end silent

end NearFetch
