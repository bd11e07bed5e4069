import NearFetch.Client

/-! # The two ways to send

`send_tx_once` and `send_tx_async` do the same until the reply comes: they read a key, sign and
submit.  Then a look at the reply may remove the entry of that key, and the result is made of the
reply.  `sendWith` is this shape, with the two functions as its instances (`sendTxOnce_eq`,
`sendTxAsync_eq`), so that a protocol has to be followed once for both.  `sendWith_frame` is the rule
for it; of what the two do to the cache it is enough to know that they remove the entry or do
nothing (`Invalidates`). -/

namespace NearFetch

open Effects

/-! ### Invalidations -/

/-- What is done on a reply leaves a protocol where it is if a removal of the entry does. -/
def Invalidates (invalidate : CacheKey → SendReply → Task Unit) : Prop :=
  ∀ (P : Protocol Op Op.Reply) (m : P.State) (key : CacheKey) (reply : SendReply),
    Follows P (fun _ m' => m' = m) m (invalidateCache key) →
      Follows P (fun _ m' => m' = m) m (invalidate key reply)

section invalidation

variable {P : Protocol Op Op.Reply} {m : P.State} {key : CacheKey}

theorem invalidateCacheIf_frame (h : Follows P (fun _ m' => m' = m) m (invalidateCache key))
    (condition : Bool) :
    Follows P (fun _ m' => m' = m) m (invalidateCacheIf condition key) := by
  cases condition with
  | true => exact h
  | false => exact rfl

theorem checkAndInvalidateCache_invalidates : Invalidates checkAndInvalidateCache := by
  intro P m key reply h
  have hfor : ∀ errs, Follows P (fun _ m' => m' = m) m (invalidateCacheFor key errs) := by
    intro errs
    induction errs with
    | nil => exact rfl
    | cons err errs ih =>
        apply (invalidateCacheIf_frame h err.invalidCache).bind
        rintro _ _ rfl
        exact ih
  apply (invalidateCacheIf_frame h _).bind
  rintro _ _ rfl
  cases reply with
  | error err => exact rfl
  | ok response => exact hfor (fetchTxErrs response)

theorem invalidateCacheIf_invalidates (condition : SendReply → Bool) :
    Invalidates fun key reply => invalidateCacheIf (condition reply) key :=
  fun _ _ _ _ h => invalidateCacheIf_frame h _

theorem Invalidates.only {invalidate : CacheKey → SendReply → Task Unit} (h : Invalidates invalidate)
    {A : Op → Prop} (hremoval : Only A (invalidateCache key)) (reply : SendReply) :
    Only A (invalidate key reply) := by
  let Q : Protocol Op Op.Reply := ⟨Unit, fun _ _ _ => (), fun _ e => A e, fun _ => True⟩
  have hfol : Follows Q (fun _ m' => m' = ()) () (invalidateCache key) :=
    hremoval.follows (fun _ he => ⟨he, fun _ => rfl⟩) trivial
  exact (h Q () key reply hfol).only fun _ _ he => he

end invalidation

/-! ### Sending -/

section sending

variable {α : Type} (cr : Crypto) (signer : SignerExt) (receiverId : AccountId)
  (actions : List Action) (waitUntil : TxExecutionStatus)

/-- The cache key that is read before the transaction is signed. -/
def readKey : Task CacheKey := do
  let accountId ← signer.accountId
  let publicKey ← signer.publicKey
  return (accountId, publicKey)

/-- Signs and submits a transaction, removes the entry as the reply may ask for, and makes the result
of the reply. -/
def sendWith (invalidate : CacheKey → SendReply → Task Unit)
    (result : SignedTransaction → SendReply → Result α) : Task (Result α) := do
  let key ← readKey signer
  match ← signTx cr signer receiverId actions with
  | .error err => return .error err
  | .ok stx =>
      let reply ← effect (.rpc (.sendTx stx waitUntil))
      invalidate key reply
      return result stx reply

/-- What `send_tx_once` makes of a reply. -/
def SendReply.received : SendReply → Result FinalExecutionOutcomeView
  | .error err => .error (.rpcTransactionError err)
  | .ok ⟨none, _⟩ => .error (.rpcReturnedInvalidData "Missing final execution outcome")
  | .ok ⟨some outcome, _⟩ => .ok outcome.intoOutcome

/-- What `send_tx_async` makes of a reply. -/
def SendReply.acknowledged (txHash : CryptoHash) : SendReply → Result CryptoHash
  | .error err => .error (.rpcTransactionError err)
  | .ok _ => .ok txHash

theorem sendTxOnce_eq : sendTxOnce cr signer receiverId actions waitUntil =
    sendWith cr signer receiverId actions waitUntil checkAndInvalidateCache
      fun _ reply => SendReply.received reply := by
  unfold sendTxOnce sendWith readKey
  simp only [bind_assoc, pure_bind]
  refine bind_congr fun accountId => bind_congr fun publicKey => bind_congr fun signed => ?_
  cases signed with
  | error err => rfl
  | ok stx =>
      refine bind_congr fun reply => bind_congr fun _ => ?_
      cases reply with
      | error err => rfl
      | ok response =>
          obtain ⟨outcome, level⟩ := response
          cases outcome <;> rfl

theorem sendTxAsync_eq : sendTxAsync cr signer receiverId actions =
    sendWith cr signer receiverId actions .none
      (fun key reply => invalidateCacheIf (SendReply.handlerError reply) key)
      fun stx reply => SendReply.acknowledged (cr.getHash stx.transaction) reply := by
  unfold sendTxAsync sendWith readKey
  simp only [bind_assoc, pure_bind]
  refine bind_congr fun accountId => bind_congr fun publicKey => bind_congr fun signed => ?_
  cases signed with
  | error err => rfl
  | ok stx =>
      refine bind_congr fun reply => bind_congr fun _ => ?_
      cases reply <;> rfl

variable {cr signer receiverId actions waitUntil} {P : Protocol Op Op.Reply} {m : P.State}
  {invalidate : CacheKey → SendReply → Task Unit}
  {result : SignedTransaction → SendReply → Result α} {Q : Result α → P.State → Prop}

/-- Sending reads a key, signs, and then fails or submits and invalidates. -/
theorem sendWith_frame {K : CacheKey → P.State → Prop}
    {S : CacheKey → Result SignedTransaction → P.State → Prop}
    (hkey : Follows P K m (readKey signer))
    (hsign : ∀ key m, K key m → Follows P (S key) m (signTx cr signer receiverId actions))
    (herror : ∀ key err m, S key (.error err) m → Q (.error err) m)
    (hsend : ∀ key stx m, S key (.ok stx) m → P.allowed m (.rpc (.sendTx stx waitUntil)) ∧
      ∀ reply, Follows P (fun _ => Q (result stx reply))
        (P.next m (.rpc (.sendTx stx waitUntil)) reply) (invalidate key reply)) :
    Follows P Q m (sendWith cr signer receiverId actions waitUntil invalidate result) := by
  apply hkey.bind
  intro key m₁ hK
  apply (hsign key m₁ hK).bind
  intro signed m₂ hS
  cases signed with
  | error err => exact herror key err m₂ hS
  | ok stx =>
      obtain ⟨hallowed, hreply⟩ := hsend key stx m₂ hS
      exact ⟨hallowed, fun reply => (hreply reply).bind fun _ _ hQ => hQ⟩

end sending

end NearFetch
