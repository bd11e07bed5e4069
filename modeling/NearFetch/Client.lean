import NearFetch.Signer

/-! # The client (`lib.rs`)

Fetching nonces through the cache, signing and sending transactions, invalidating the cache
on the replies, and the status query.  All tasks work on clones of one client, whose RPC client
and nonce cache are the world of the effects, so no function takes the client as an argument.
A guard of the nonce cache is dropped explicitly where its scope ends. -/

namespace NearFetch

open Effects FifoLock

/-! ### Queries -/

/-- `Client::view_block`, awaited: the latest block. -/
def viewBlock : Task (Result BlockView) := do
  match ← effect (.rpc (.block .latest)) with
  | .error err => return .error (.rpc (.block err))
  | .ok block => return .ok block

/-- `Client::access_key`: fetches the access key for the given account ID and public key. -/
def accessKey (accountId : AccountId) (publicKey : PublicKey) :
    Task (Result (AccessKeyView × CryptoHash × BlockHeight)) := do
  match ← effect (.rpc (.query (.finality .none) (.viewAccessKey accountId publicKey))) with
  | .error err => return .error (.rpcQueryError err)
  | .ok resp =>
      match resp.kind with
      | .accessKey view => return .ok (view, resp.blockHash, resp.blockHeight)
      | _ => return .error (.rpcReturnedInvalidData "while querying access key")

/-- The nonce that the reply to an access-key query reports, if the query succeeded. -/
def reportedNonce : Except (JsonRpcError RpcQueryError) RpcQueryResponse → Option Nonce
  | .ok ⟨.accessKey view, _, _⟩ => some view.nonce
  | .ok _ => none
  | .error _ => none

/-! ### Nonces -/

/-- `cached_nonce`: draws the next nonce from the cached entry. -/
def cachedNonce (key : CacheKey) : Task (Result (Nonce × CryptoHash × BlockHeight)) := do
  let nonce ← effect (.nonceFetchAdd key)
  -- the block hash of the previous transaction is no longer valid for a new one
  match ← viewBlock with
  | .error err => return .error err
  | .ok block => return .ok (wrapSucc nonce, block.header.hash, block.header.height)

/-- The body of `fetch_nonce`, up to its return. -/
def fetchNonceBody (accountId : AccountId) (publicKey : PublicKey) :
    Task (Result (Nonce × CryptoHash × BlockHeight)) := do
  let cacheKey := (accountId, publicKey)
  lockNonces .read
  if ← effect (.nonceGet cacheKey) then
    let result ← cachedNonce cacheKey
    dropGuard
    return result
  else
    dropGuard
    lockNonces .write
    -- another writer may have written the entry while this one waited for the guard
    if ← effect (.nonceGet cacheKey) then
      let result ← cachedNonce cacheKey
      dropGuard
      return result
    else
      match ← accessKey accountId publicKey with
      | .error err =>
          dropGuard
          return .error err
      | .ok (view, blockHash, blockHeight) =>
          effect (.nonceInsert cacheKey (wrapSucc view.nonce))
          dropGuard
          return .ok (wrapSucc view.nonce, blockHash, blockHeight)

/-- `fetch_nonce`: the transaction nonce and block hash associated to the access key. -/
def fetchNonce (accountId : AccountId) (publicKey : PublicKey) :
    Task (Result (Nonce × CryptoHash × BlockHeight)) := do
  let result ← fetchNonceBody accountId publicKey
  effect (.nonceReturned (accountId, publicKey) result)
  return result

/-- The nonce that a call of `fetch_nonce` returns, if it succeeds. -/
def returnedNonce : Result (Nonce × CryptoHash × BlockHeight) → Option Nonce
  | .ok (nonce, _, _) => some nonce
  | .error _ => none

/-- `Client::invalidate_cache`. -/
def invalidateCache (cacheKey : CacheKey) : Task Unit := do
  lockNonces .write
  effect (.nonceRemove cacheKey)
  dropGuard

/-- `if condition { self.invalidate_cache(cache_key).await; }`. -/
def invalidateCacheIf (condition : Bool) (cacheKey : CacheKey) : Task Unit :=
  if condition = true then invalidateCache cacheKey else pure ()

/-! ### Failures in a reply -/

/-- The error of a failed outcome. -/
def ExecutionStatusView.failure? : ExecutionStatusView → Option TxExecutionError
  | .failure err => some err
  | _ => none

/-- The error of a failed final status. -/
def FinalExecutionStatus.failure? : FinalExecutionStatus → Option TxExecutionError
  | .failure err => some err
  | _ => none

/-- `fetch_tx_errs`: the errors of the final status, of the transaction and of the receipts. -/
def fetchTxErrs (result : RpcTransactionResponse) : List TxExecutionError :=
  match result.finalExecutionOutcome with
  | none => []
  | some outcome =>
      let outcome := match outcome with
        | .finalExecutionOutcome outcome => outcome
        | .finalExecutionOutcomeWithReceipt outcome => outcome.finalOutcome
      outcome.status.failure?.toList ++
        outcome.transactionOutcome.outcome.status.failure?.toList ++
        outcome.receiptsOutcome.filterMap fun receipt => receipt.outcome.status.failure?

/-- The errors that show that the nonce of the transaction was not valid. -/
def TxExecutionError.invalidCache : TxExecutionError → Bool
  | .actionError ⟨_, .delegateActionInvalidNonce _ _⟩ => true
  | .invalidTxError (.invalidNonce _ _) => true
  | _ => false

/-- What the RPC replies to a transaction that was sent. -/
abbrev SendReply := Except (JsonRpcError RpcTransactionError) RpcTransactionResponse

/-- The transaction was rejected because of its nonce:
`Err(ServerError(HandlerError(InvalidTransaction { context: InvalidNonce { .. }, .. })))`. -/
def SendReply.invalidNonce : SendReply → Bool
  | .error (.serverError (.handlerError (.invalidTransaction (.invalidNonce _ _)))) => true
  | _ => false

/-- `Err(ServerError(HandlerError(_)))`. -/
def SendReply.handlerError : SendReply → Bool
  | .error (.serverError (.handlerError _)) => true
  | _ => false

/-- The loop of `check_and_invalidate_cache` over the errors of the outcome. -/
def invalidateCacheFor (cacheKey : CacheKey) : List TxExecutionError → Task Unit
  | [] => pure ()
  | txErr :: rest => do
      invalidateCacheIf txErr.invalidCache cacheKey
      invalidateCacheFor cacheKey rest

/-- `Client::check_and_invalidate_cache`. -/
def checkAndInvalidateCache (cacheKey : CacheKey) (result : SendReply) : Task Unit := do
  -- the cached nonce is potentially very far behind
  invalidateCacheIf (SendReply.invalidNonce result) cacheKey
  match result with
  | .error _ => return ()
  | .ok outcome => invalidateCacheFor cacheKey (fetchTxErrs outcome)

/-! ### Transactions -/

section transactions

variable (cr : Crypto)

/-- `Client::sign_tx`. -/
def signTx (signer : SignerExt) (receiverId : AccountId) (actions : List Action) :
    Task (Result SignedTransaction) := do
  let pk ← signer.publicKey
  let accountId ← signer.accountId
  match ← fetchNonce accountId pk with
  | .error err => return .error err
  | .ok (nonce, blockHash, _) =>
      let signerId ← signer.accountId
      let tx : Transaction := { nonce, signerId, publicKey := pk, receiverId, blockHash, actions }
      let signature ← signer.sign (cr.getHash tx).bytes
      return .ok ⟨signature, tx⟩

/-- `Client::send_tx_once`: sends the transaction only once. -/
def sendTxOnce (signer : SignerExt) (receiverId : AccountId) (actions : List Action)
    (waitUntil : TxExecutionStatus) : Task (Result FinalExecutionOutcomeView) := do
  let accountId ← signer.accountId
  let publicKey ← signer.publicKey
  let cacheKey := (accountId, publicKey)
  match ← signTx cr signer receiverId actions with
  | .error err => return .error err
  | .ok signedTransaction =>
      let result ← effect (.rpc (.sendTx signedTransaction waitUntil))
      checkAndInvalidateCache cacheKey result
      match result with
      | .error err => return .error (.rpcTransactionError err)
      | .ok response =>
          match response.finalExecutionOutcome with
          | none => return .error (.rpcReturnedInvalidData "Missing final execution outcome")
          | some outcome => return .ok outcome.intoOutcome

/-- `Client::send_tx_async`: sends the transaction and returns its hash. -/
def sendTxAsync (signer : SignerExt) (receiverId : AccountId) (actions : List Action) :
    Task (Result CryptoHash) := do
  let accountId ← signer.accountId
  let publicKey ← signer.publicKey
  let cacheKey := (accountId, publicKey)
  match ← signTx cr signer receiverId actions with
  | .error err => return .error err
  | .ok signedTransaction =>
      let txHash := cr.getHash signedTransaction.transaction
      let result ← effect (.rpc (.sendTx signedTransaction .none))
      -- just in case: the reply to an asynchronous submission should hold no such error
      invalidateCacheIf (SendReply.handlerError result) cacheKey
      match result with
      | .error err => return .error (.rpcTransactionError err)
      | .ok _ => return .ok txHash

end transactions

/-- `Client::status_tx_async`: the status of a transaction given its hash. -/
def statusTxAsync (senderId : AccountId) (txHash : CryptoHash) (waitUntil : TxExecutionStatus) :
    Task (Result FinalExecutionOutcomeView) := do
  match ← effect (.rpc (.tx senderId txHash waitUntil)) with
  | .error err => return .error (.rpcTransactionError err)
  | .ok response =>
      match response.finalExecutionStatus with
      | .none | .included => return .error .rpcTransactionPending
      | _ =>
          match response.finalExecutionOutcome with
          | none => return .error (.rpcReturnedInvalidData "Missing final execution outcome")
          | some outcome => return .ok outcome.intoOutcome

end NearFetch
