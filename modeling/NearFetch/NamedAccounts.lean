import NearFetch.KeyRaces

/-! # In whose name the client acts

The entries that nonces are drawn from, the access keys that are asked for and the transactions that
are sent all name an account.  `accountProtocol` allows them for one account only.  A signer all of
whose keys are of that account keeps the whole client to it (`SendCall.named`), however its counter
moves between the reads. -/

namespace NearFetch

open Effects

/-- The account that the effect names. -/
def Op.namedAccount : Op → Option AccountId
  | .nonceFetchAdd key => some key.1
  | .nonceInsert key _ => some key.1
  | .nonceRemove key => some key.1
  | .rpc (.query _ (.viewAccessKey accountId _)) => some accountId
  | .rpc (.sendTx stx _) => some stx.transaction.signerId
  | _ => none

/-- The effect names no other account. -/
def Op.InName (a : AccountId) (e : Op) : Prop := ∀ x ∈ e.namedAccount, x = a

/-- Everything in the name of one account. -/
abbrev accountProtocol (a : AccountId) : Protocol Op Op.Reply where
  State := Unit
  next _ _ _ := ()
  allowed _ e := e.InName a
  mayPanic _ := True

/-- Every counter value selects an in-memory signer of the account. -/
def KeyRotatingSigner.Of (ks : KeyRotatingSigner) (a : AccountId) : Prop :=
  ∀ v, ∃ sg, ks.signerAt v = some (.inMemory sg) ∧ sg.accountId = a

theorem KeyRotatingSigner.select_eq {ks : KeyRotatingSigner} {v : ℕ} {s : Signer}
    (h : ks.signerAt v = some s) : ks.select v = pure s := by
  unfold KeyRotatingSigner.signerAt at h
  unfold KeyRotatingSigner.select
  rw [h]

section named

variable {a : AccountId} {α : Type}

theorem Op.inName_of_none {e : Op} (h : e.namedAccount = none) : e.InName a := by
  intro x hx
  rw [h] at hx
  cases hx

theorem Synchronous.named {p : Task α} (hp : Synchronous p) :
    Follows (accountProtocol a) (fun _ _ => True) () p := by
  have hfol : Follows (accountProtocol a) (fun _ m' => m' = ()) () p := by
    refine Only.follows ?_ trivial hp
    intro e he
    refine ⟨Op.inName_of_none ?_, fun _ => rfl⟩
    cases e <;> first | rfl | cases he
  exact hfol.mono fun _ _ _ => trivial

/-- Lookups are not counted: they are followed by a draw or a query for the same key. -/
theorem named_unmoved : Unmoved (accountProtocol a) where
  allowed _ e he := by
    apply Op.inName_of_none
    cases e <;> first | rfl | cases he
  next _ _ _ _ := rfl

theorem fetchNonce_named (publicKey : PublicKey) :
    Follows (accountProtocol a) (fun _ _ => True) () (fetchNonce a publicKey) := by
  have hown : ∀ x ∈ some a, x = a := by simp
  apply fetchNonce_frame named_unmoved
  · refine ⟨hown, fun n => ⟨Op.inName_of_none rfl, fun reply => ?_⟩⟩
    cases reply <;> trivial
  · refine ⟨hown, fun reply => ?_⟩
    cases reply with
    | error err => trivial
    | ok resp =>
        obtain ⟨kind, blockHash, blockHeight⟩ := resp
        cases kind with
        | accessKey view => exact ⟨hown, trivial⟩
        | _ => trivial

theorem invalidateCache_named {key : CacheKey} (hkey : key.1 = a) :
    Follows (accountProtocol a) (fun _ m => m = ()) () (invalidateCache key) := by
  have hown : Op.InName a (.nonceRemove key) := by
    intro x hx
    cases hx
    exact hkey
  refine ⟨Op.inName_of_none rfl, fun _ => ⟨Op.inName_of_none rfl, fun _ => ?_⟩⟩
  exact ⟨hown, fun _ => ⟨Op.inName_of_none rfl, fun _ => rfl⟩⟩

variable (cr : Crypto) {ks : KeyRotatingSigner} (hks : ks.Of a) (receiverId : AccountId)
  (actions : List Action)
include hks

theorem accountId_named : Follows (accountProtocol a) (fun x _ => x = a) () ks.accountId := by
  refine ⟨Op.inName_of_none rfl, fun v => ?_⟩
  obtain ⟨sg, hsg, rfl⟩ := hks v
  change Follows _ _ _ (ks.select v >>= Signer.accountId)
  rw [KeyRotatingSigner.select_eq hsg]
  exact rfl

theorem signTx_named :
    Follows (accountProtocol a)
      (fun result _ => ∀ stx, result = .ok stx → stx.transaction.signerId = a) ()
      (signTx cr (ks.ext cr) receiverId actions) := by
  unfold signTx
  refine (ks.ext cr).publicKey_sync.named.bind fun pk _ _ => ?_
  apply (accountId_named hks).bind
  rintro accountId _ rfl
  refine (fetchNonce_named pk).bind fun result _ _ => ?_
  cases result with
  | error err =>
      intro stx hstx
      cases hstx
  | ok x =>
      apply (accountId_named hks).bind
      rintro signerId _ rfl
      refine ((ks.ext cr).sign_sync _).named.bind fun signature _ _ => ?_
      intro stx hstx
      cases hstx
      rfl

theorem sendWith_named (waitUntil : TxExecutionStatus)
    {invalidate : CacheKey → SendReply → Task Unit} (hinvalidate : Invalidates invalidate)
    (result : SignedTransaction → SendReply → Result α) :
    Follows (accountProtocol a) (fun _ _ => True) ()
      (sendWith cr (ks.ext cr) receiverId actions waitUntil invalidate result) := by
  apply sendWith_frame (K := fun key _ => key.1 = a)
    (S := fun key signed _ => key.1 = a ∧
      ∀ stx, signed = .ok stx → stx.transaction.signerId = a)
  · apply (accountId_named hks).bind
    rintro accountId _ rfl
    exact (ks.ext cr).publicKey_sync.named.bind fun pk _ _ => rfl
  · intro key _ hkey
    apply (signTx_named cr hks receiverId actions).mono
    intro signed _ hsigned
    exact ⟨hkey, hsigned⟩
  · intro key err _ _
    trivial
  · rintro key stx _ ⟨hkey, hsigned⟩
    refine ⟨by simp [Op.InName, Op.namedAccount, hsigned stx rfl], fun reply => ?_⟩
    exact (hinvalidate _ _ key reply (invalidateCache_named hkey)).mono fun _ _ _ => trivial

theorem sendTxOnce_named (waitUntil : TxExecutionStatus) :
    Follows (accountProtocol a) (fun _ _ => True) ()
      (sendTxOnce cr (ks.ext cr) receiverId actions waitUntil) := by
  rw [sendTxOnce_eq]
  exact sendWith_named cr hks _ _ _ checkAndInvalidateCache_invalidates _

theorem sendTxAsync_named :
    Follows (accountProtocol a) (fun _ _ => True) ()
      (sendTxAsync cr (ks.ext cr) receiverId actions) := by
  rw [sendTxAsync_eq]
  exact sendWith_named cr hks _ _ _ (invalidateCacheIf_invalidates _) _

theorem SendCall.named (call : SendCall) : Only (Op.InName a) (call.task cr ks) := by
  have hfol : Follows (accountProtocol a) (fun _ _ => True) () (call.task cr ks) := by
    cases call with
    | once receiverId actions waitUntil =>
        exact (sendTxOnce_named cr hks receiverId actions waitUntil).bind fun _ _ _ => trivial
    | async receiverId actions =>
        exact (sendTxAsync_named cr hks receiverId actions).bind fun _ _ _ => trivial
  exact hfol.only fun _ _ he => he

end named

end NearFetch
