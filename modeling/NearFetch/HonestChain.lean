import NearFetch.Client

/-! # An honest chain behind the RPC endpoint

The chain keeps the nonce of every access key.  A transaction is accepted exactly when its nonce
is greater than that of its key, which then becomes the transaction's; any other is rejected
with `InvalidNonce`.  An access-key query reports the current nonce or fails.  Other users of a
key may raise its nonce at any time (`drift`), and nothing lowers it.

`honestChain` refuses every reply that such a chain would not give, so it allows whatever else a
reply may contain; `Chain.reply` is one way to choose replies. -/

namespace NearFetch

/-- The state of the chain, with the transactions that it accepted and rejected, oldest first. -/
structure Chain where
  nonces : CacheKey → Nonce
  accepted : List SignedTransaction
  rejected : List SignedTransaction

namespace Chain

/-- The chain would accept the transaction. -/
def admits (ch : Chain) (stx : SignedTransaction) : Prop :=
  ch.nonces stx.transaction.key < stx.transaction.nonce

instance (ch : Chain) (stx : SignedTransaction) : Decidable (ch.admits stx) :=
  inferInstanceAs (Decidable (ch.nonces stx.transaction.key < stx.transaction.nonce))

/-- The chain after it has accepted a transaction. -/
def accept (ch : Chain) (stx : SignedTransaction) : Chain where
  nonces := Function.update ch.nonces stx.transaction.key stx.transaction.nonce
  accepted := ch.accepted ++ [stx]
  rejected := ch.rejected

/-- The chain after it has rejected a transaction. -/
def reject (ch : Chain) (stx : SignedTransaction) : Chain :=
  { ch with rejected := ch.rejected ++ [stx] }

/-- `HandlerError(InvalidTransaction { context: InvalidNonce { .. } })`. -/
def invalidNonce (ch : Chain) (stx : SignedTransaction) : SendReply :=
  .error (.serverError (.handlerError (.invalidTransaction
    (.invalidNonce stx.transaction.nonce (ch.nonces stx.transaction.key)))))

/-- Replies of a chain that is asked for blocks and access keys, and never in vain: `block` is the latest
block, and `outcome` what an accepted transaction is answered with. -/
def reply (block : BlockView) (outcome : SignedTransaction → FinalExecutionOutcomeViewEnum)
    (ch : Chain) : (call : Rpc) → call.Reply
  | .block _ => .ok block
  | .query _ (.viewAccessKey accountId publicKey) => .ok
      ⟨.accessKey ⟨ch.nonces (accountId, publicKey), .fullAccess⟩, block.header.hash,
        block.header.height⟩
  | .query _ _ => .error (.serverError (.internalError none))
  | .gasPrice _ => .error (.serverError (.internalError none))
  | .chunk _ => .error (.serverError (.internalError none))
  | .sendTx stx waitUntil =>
      if ch.admits stx then .ok ⟨some (outcome stx), waitUntil⟩ else ch.invalidNonce stx
  | .tx _ hash _ => .error (.serverError (.handlerError (.unknownTransaction hash)))

end Chain

/-- The endpoint of an honest chain. -/
def honestChain : Endpoint Chain (CacheKey × Nonce) where
  serve
    | ch, .block _, _ => some ch
    | ch, .query _ (.viewAccessKey accountId publicKey), reply =>
        match reportedNonce reply with
        | some b => if b = ch.nonces (accountId, publicKey) then some ch else none
        | none => some ch
    | ch, .query _ _, _ => some ch
    | ch, .gasPrice _, _ => some ch
    | ch, .chunk _, _ => some ch
    | ch, .sendTx stx _, reply =>
        match decide (ch.admits stx), SendReply.invalidNonce reply with
        | true, false => some (ch.accept stx)
        | false, true => some (ch.reject stx)
        | _, _ => none
    | ch, .tx _ _ _, _ => some ch
  drift a ch :=
    { ch with nonces := Function.update ch.nonces a.1 (max a.2 (ch.nonces a.1)) }

end NearFetch
