import NearFetch.Submissions

/-! # Calls that do not panic

Where the addition of nonces wraps, nothing of the client panics by itself.  It asks a signer, which
may: signing and sending with a signer whose methods do not panic is calm (`sendWith_calm`). -/

namespace NearFetch

open Effects

/-! ### The cache -/

theorem calm_unmoved : Unmoved (calmProtocol Op Op.Reply) where
  allowed _ _ _ := trivial
  next _ _ _ _ := rfl

theorem fetchNonce_calm (accountId : AccountId) (publicKey : PublicKey) :
    Calm (fetchNonce accountId publicKey) := by
  rw [calm_iff]
  apply fetchNonce_frame calm_unmoved
  · refine ⟨trivial, fun n => ⟨trivial, fun reply => ?_⟩⟩
    cases reply <;> trivial
  · refine ⟨trivial, fun reply => ?_⟩
    cases reply with
    | error err => trivial
    | ok resp =>
        obtain ⟨kind, blockHash, blockHeight⟩ := resp
        cases kind <;> trivial

theorem invalidateCache_calm (key : CacheKey) : Calm (invalidateCache key) :=
  calm_iff.mpr ⟨trivial, fun _ => ⟨trivial, fun _ => ⟨trivial, fun _ => ⟨trivial, fun _ => trivial⟩⟩⟩⟩

/-! ### Sending -/

/-- The methods of the signer do not panic. -/
structure SignerExt.Reliable (signer : SignerExt) : Prop where
  accountId : Calm signer.accountId
  publicKey : Calm signer.publicKey
  sign : ∀ data, Calm (signer.sign data)

section sending

variable {cr : Crypto} {signer : SignerExt} {receiverId : AccountId} {actions : List Action}
  {waitUntil : TxExecutionStatus}

theorem signTx_calm (hs : signer.Reliable) : Calm (signTx cr signer receiverId actions) := by
  refine hs.publicKey.bind fun pk => hs.accountId.bind fun accountId => ?_
  refine (fetchNonce_calm accountId pk).bind fun result => ?_
  cases result with
  | error err => exact calm_pure _
  | ok x => exact hs.accountId.bind fun _ => (hs.sign _).bind fun _ => calm_pure _

theorem sendWith_calm {α : Type} (hs : signer.Reliable) {invalidate : CacheKey → SendReply → Task Unit}
    (hinvalidate : Invalidates invalidate) (result : SignedTransaction → SendReply → Result α) :
    Calm (sendWith cr signer receiverId actions waitUntil invalidate result) := by
  have hread : Calm (readKey signer) :=
    hs.accountId.bind fun _ => hs.publicKey.bind fun _ => calm_pure _
  rw [calm_iff]
  apply sendWith_frame (K := fun _ _ => True) (S := fun _ _ _ => True)
  · exact calm_iff.mp hread
  · intro key m _
    exact calm_iff.mp (signTx_calm hs)
  · intro key err m _
    trivial
  · intro key stx m _
    refine ⟨trivial, fun reply => ?_⟩
    have hremoval : Follows (calmProtocol Op Op.Reply) (fun _ m => m = ()) () (invalidateCache key) :=
      (calm_iff.mp (invalidateCache_calm key)).mono fun _ _ _ => rfl
    exact (hinvalidate _ _ key reply hremoval).mono fun _ _ _ => trivial

end sending

end NearFetch
