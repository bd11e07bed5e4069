import NearFetch.Primitives

/-! # JSON-RPC requests, replies and errors

The requests that the client sends, the type of the reply to each, the errors of
`near-jsonrpc-client` that the client takes apart, and the client's own `Error` with its
conversions (`error.rs`). -/

namespace NearFetch

/-! ### Errors of the RPC client -/

inductive JsonRpcServerError (ε : Type) where
  | requestValidationError (info : String)
  | handlerError (error : ε)
  | internalError (info : Option String)
  | nonContextualError (info : String)
  | responseStatusError (info : String)
deriving DecidableEq, Repr

inductive JsonRpcError (ε : Type) where
  | transportError (info : String)
  | serverError (error : JsonRpcServerError ε)
deriving DecidableEq, Repr

inductive RpcTransactionError where
  | invalidTransaction (context : InvalidTxError)
  | doesNotTrackShard
  | requestRouted (transactionHash : CryptoHash)
  | unknownTransaction (requestedTransactionHash : CryptoHash)
  | internalError (debugInfo : String)
  | timeoutError
deriving DecidableEq, Repr

/-- Handler errors of block queries, which the client only passes on. -/
structure RpcBlockError where
  info : String
deriving DecidableEq, Repr

/-- Handler errors of state queries, which the client only passes on. -/
structure RpcQueryError where
  info : String
deriving DecidableEq, Repr

/-- Handler errors of queries for the gas price, which the client only passes on. -/
structure RpcGasPriceError where
  info : String
deriving DecidableEq, Repr

/-- Handler errors of queries for chunks, which the client only passes on. -/
structure RpcChunkError where
  info : String
deriving DecidableEq, Repr

/-! ### Requests and replies -/

inductive BlockId where
  | height (height : BlockHeight)
  | hash (hash : CryptoHash)
deriving DecidableEq, Repr

inductive Finality where
  | none
  | doomSlug
  | final
deriving DecidableEq, Repr

inductive SyncCheckpoint where
  | genesis
  | earliestAvailable
deriving DecidableEq, Repr

/-- The `Debug` text of a checkpoint. -/
def SyncCheckpoint.debug : SyncCheckpoint → String
  | .genesis => "Genesis"
  | .earliestAvailable => "EarliestAvailable"

inductive BlockReference where
  | blockId (id : BlockId)
  | finality (finality : Finality)
  | syncCheckpoint (point : SyncCheckpoint)
deriving DecidableEq, Repr

/-- `BlockReference::latest()`. -/
def BlockReference.latest : BlockReference := .finality .none

abbrev ShardId := ℕ

abbrev StoreKey := List UInt8

inductive ChunkReference where
  | blockShardId (blockId : BlockId) (shardId : ShardId)
  | chunkHash (chunkId : CryptoHash)
deriving DecidableEq, Repr

inductive QueryRequest where
  | viewAccount (accountId : AccountId)
  | viewCode (accountId : AccountId)
  | viewState (accountId : AccountId) (keyPrefix : StoreKey) (afterKey : Option StoreKey)
      (limit : Option ℕ) (includeProof : Bool)
  | viewAccessKey (accountId : AccountId) (publicKey : PublicKey)
  | viewAccessKeyList (accountId : AccountId)
  | callFunction (accountId : AccountId) (methodName : String) (args : List UInt8)
deriving DecidableEq, Repr

structure AccountView where
  amount : NearToken
  locked : NearToken
  codeHash : CryptoHash
  storageUsage : ℕ
deriving DecidableEq, Repr

structure ContractCodeView where
  code : List UInt8
  hash : CryptoHash
deriving DecidableEq, Repr

structure StateItem where
  key : StoreKey
  value : List UInt8
deriving DecidableEq, Repr

structure ViewStateResult where
  values : List StateItem
  proof : List (List UInt8)
deriving DecidableEq, Repr

structure CallResult where
  result : List UInt8
  logs : List String
deriving DecidableEq, Repr

structure AccessKeyInfoView where
  publicKey : PublicKey
  accessKey : AccessKeyView
deriving DecidableEq, Repr

structure AccessKeyList where
  keys : List AccessKeyInfoView
deriving DecidableEq, Repr

inductive QueryResponseKind where
  | viewAccount (account : AccountView)
  | viewCode (contract : ContractCodeView)
  | viewState (state : ViewStateResult)
  | callResult (result : CallResult)
  | accessKey (key : AccessKeyView)
  | accessKeyList (keylist : AccessKeyList)
deriving DecidableEq, Repr

structure RpcQueryResponse where
  kind : QueryResponseKind
  blockHash : CryptoHash
  blockHeight : BlockHeight
deriving DecidableEq, Repr

structure GasPriceView where
  gasPrice : NearToken
deriving DecidableEq, Repr

structure ChunkView where
  author : AccountId
  chunkHash : CryptoHash
  shardId : ShardId
deriving DecidableEq, Repr

structure RpcTransactionResponse where
  finalExecutionOutcome : Option FinalExecutionOutcomeViewEnum
  finalExecutionStatus : TxExecutionStatus
deriving DecidableEq, Repr

/-- The RPC methods that the client calls. -/
inductive Rpc where
  | block (reference : BlockReference)
  | query (reference : BlockReference) (request : QueryRequest)
  | gasPrice (blockId : Option BlockId)
  | chunk (reference : ChunkReference)
  | sendTx (signedTransaction : SignedTransaction) (waitUntil : TxExecutionStatus)
  | tx (senderAccountId : AccountId) (txHash : CryptoHash) (waitUntil : TxExecutionStatus)
deriving DecidableEq, Repr

/-- `MethodCallResult` of the method. -/
abbrev Rpc.Reply : Rpc → Type
  | .block _ => Except (JsonRpcError RpcBlockError) BlockView
  | .query _ _ => Except (JsonRpcError RpcQueryError) RpcQueryResponse
  | .gasPrice _ => Except (JsonRpcError RpcGasPriceError) GasPriceView
  | .chunk _ => Except (JsonRpcError RpcChunkError) ChunkView
  | .sendTx _ _ => Except (JsonRpcError RpcTransactionError) RpcTransactionResponse
  | .tx _ _ _ => Except (JsonRpcError RpcTransactionError) RpcTransactionResponse

/-! ### The client's errors -/

/-- The boxed errors that `Error::Rpc` catches. -/
inductive BoxedError where
  | block (error : JsonRpcError RpcBlockError)
  | query (error : JsonRpcError RpcQueryError)
  | gasPrice (error : JsonRpcError RpcGasPriceError)
deriving DecidableEq, Repr

inductive Error where
  | rpcBlockError (error : JsonRpcError RpcBlockError)
  | rpcQueryError (error : JsonRpcError RpcQueryError)
  | rpcChunkError (error : JsonRpcError RpcChunkError)
  | rpcTransactionError (error : JsonRpcError RpcTransactionError)
  | rpcTransactionPending
  | rpcReturnedInvalidData (info : String)
  | rpc (error : BoxedError)
  | txExecution (error : TxExecutionError)
  | txStatus (status : String)
  | serialization (info : String)
  | base64 (info : String)
  | io (info : String)
  | invalidArgs (info : String)
deriving DecidableEq, Repr

/-- `crate::error::Result`. -/
abbrev Result (α : Type) := Except Error α

end NearFetch
