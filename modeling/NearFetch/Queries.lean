import NearFetch.Operations

/-! # Queries (`query.rs`)

A `Query` is a method with an optional block reference.  Awaiting it makes the request of the method,
at the latest block if no other was asked for, sends it and takes the response apart.  What differs
from method to method is in `ProcessQuery`, and what differs between the requests of the RPC client is
in `RpcMethod`.  Only a view of a function can fail before it is sent, when its arguments hold an
error.  A query for a chunk is an object of its own, and may need a second call. -/

namespace NearFetch

open Effects

/-! ### Requests -/

/-- `RpcQueryRequest`. -/
structure RpcQueryRequest where
  blockReference : BlockReference
  request : QueryRequest
deriving DecidableEq, Repr

/-- `RpcBlockRequest`. -/
structure RpcBlockRequest where
  blockReference : BlockReference
deriving DecidableEq, Repr

/-- `RpcGasPriceRequest`. -/
structure RpcGasPriceRequest where
  blockId : Option BlockId
deriving DecidableEq, Repr

/-- The trait `RpcMethod`; `boxed` makes the error of the method a boxed one. -/
class RpcMethod (M : Type) where
  call : M → Rpc
  Response : Type
  MethodError : Type
  reply : ∀ method : M, (call method).Reply → Except (JsonRpcError MethodError) Response
  boxed : JsonRpcError MethodError → BoxedError

instance : RpcMethod RpcQueryRequest where
  call method := .query method.blockReference method.request
  Response := RpcQueryResponse
  MethodError := RpcQueryError
  reply _ r := r
  boxed := .query

instance : RpcMethod RpcBlockRequest where
  call method := .block method.blockReference
  Response := BlockView
  MethodError := RpcBlockError
  reply _ r := r
  boxed := .block

instance : RpcMethod RpcGasPriceRequest where
  call method := .gasPrice method.blockId
  Response := GasPriceView
  MethodError := RpcGasPriceError
  reply _ r := r
  boxed := .gasPrice

/-- `Client::send_query`. -/
def sendQuery {M : Type} [RpcMethod M] (method : M) :
    Task (Except (JsonRpcError (RpcMethod.MethodError M)) (RpcMethod.Response M)) := do
  let reply ← effect (.rpc (RpcMethod.call method))
  return RpcMethod.reply method reply

/-- The trait `ProcessQuery` of a type `T`, with its `Method` and its `Output`. -/
class ProcessQuery (T : Type) (Method Output : outParam Type) [RpcMethod Method] where
  intoRequest : T → BlockReference → Result Method
  fromResponse : RpcMethod.Response Method → Result Output

/-! ### The query object -/

/-- A method with the block that it is to be asked at. -/
structure Query (T : Type) where
  method : T
  blockRef : Option BlockReference

namespace Query

variable {T Method Output : Type}

/-- `Query::new`. -/
def new (method : T) : Query T := ⟨method, none⟩

/-- `Query::block_height`. -/
def blockHeight (q : Query T) (height : BlockHeight) : Query T :=
  { q with blockRef := some (.blockId (.height height)) }

/-- `Query::block_hash`. -/
def blockHash (q : Query T) (hash : CryptoHash) : Query T :=
  { q with blockRef := some (.blockId (.hash hash)) }

/-- `Query::finality`, only for methods that are an `RpcQueryRequest`. -/
def finality [ProcessQuery T RpcQueryRequest Output] (q : Query T) (value : Finality) : Query T :=
  { q with blockRef := some (.finality value) }

/-- `Query::into_future`. -/
def intoFuture [RpcMethod Method] [ProcessQuery T Method Output] (q : Query T) :
    Task (Result Output) :=
  match ProcessQuery.intoRequest q.method (q.blockRef.getD .latest) with
  | .error err => return .error err
  | .ok request => do
      match ← sendQuery request with
      | .error err => return .error (.rpc (RpcMethod.boxed (M := Method) err))
      | .ok resp => return ProcessQuery.fromResponse (T := T) resp

end Query

/-! ### The methods -/

/-- A call of a view function. -/
structure ViewFunction where
  accountId : AccountId
  function : Function

/-- The result from a call into a view function. -/
structure ViewResult where
  result : List UInt8
  logs : List String
deriving DecidableEq, Repr

/-- `From<CallResult> for ViewResult`. -/
def ViewResult.ofCallResult (result : CallResult) : ViewResult := ⟨result.result, result.logs⟩

instance : ProcessQuery ViewFunction RpcQueryRequest ViewResult where
  intoRequest view blockReference :=
    match view.function.args with
    | .error err => .error err
    | .ok args => .ok
        { blockReference
          request := .callFunction view.accountId view.function.name args }
  fromResponse resp :=
    match resp.kind with
    | .callResult result => .ok (.ofCallResult result)
    | _ => .error (.rpcReturnedInvalidData "while querying account")

/-- A query for the code of a contract. -/
structure ViewCode where
  accountId : AccountId

instance : ProcessQuery ViewCode RpcQueryRequest (List UInt8) where
  intoRequest view blockReference := .ok
    { blockReference
      request := .viewCode view.accountId }
  fromResponse resp :=
    match resp.kind with
    | .viewCode contract => .ok contract.code
    | _ => .error (.rpcReturnedInvalidData "while querying code")

/-- A query for an account. -/
structure ViewAccount where
  accountId : AccountId

instance : ProcessQuery ViewAccount RpcQueryRequest AccountView where
  intoRequest view blockReference := .ok
    { blockReference
      request := .viewAccount view.accountId }
  fromResponse resp :=
    match resp.kind with
    | .viewAccount account => .ok account
    | _ => .error (.rpcReturnedInvalidData "while querying account")

/-- A query for a block. -/
structure ViewBlock where

instance : ProcessQuery ViewBlock RpcBlockRequest BlockView where
  intoRequest _ blockReference := .ok { blockReference }
  fromResponse view := .ok view

/-- A query for the state of an account. -/
structure ViewState where
  accountId : AccountId
  keyPrefix : Option (List UInt8)

instance : ProcessQuery ViewState RpcQueryRequest ViewStateResult where
  intoRequest view blockReference := .ok
    { blockReference
      request := .viewState view.accountId (view.keyPrefix.getD []) none none false }
  fromResponse resp :=
    match resp.kind with
    | .viewState state => .ok state
    | _ => .error (.rpcReturnedInvalidData "while querying state")

/-- A query for an access key. -/
structure ViewAccessKey where
  accountId : AccountId
  publicKey : PublicKey

instance : ProcessQuery ViewAccessKey RpcQueryRequest AccessKeyView where
  intoRequest view blockReference := .ok
    { blockReference
      request := .viewAccessKey view.accountId view.publicKey }
  fromResponse resp :=
    match resp.kind with
    | .accessKey key => .ok key
    | _ => .error (.rpcReturnedInvalidData "while querying access key")

/-- A query for all access keys of an account. -/
structure ViewAccessKeyList where
  accountId : AccountId

instance : ProcessQuery ViewAccessKeyList RpcQueryRequest AccessKeyList where
  intoRequest view blockReference := .ok
    { blockReference
      request := .viewAccessKeyList view.accountId }
  fromResponse resp :=
    match resp.kind with
    | .accessKeyList keylist => .ok keylist
    | _ => .error (.rpcReturnedInvalidData "while querying access keys")

/-- A query for the gas price. -/
structure GasPrice where

instance : ProcessQuery GasPrice RpcGasPriceRequest NearToken where
  intoRequest _ blockRef :=
    match blockRef with
    | .blockId blockId => .ok ⟨some blockId⟩
    | .finality _ => .ok ⟨none⟩
    | .syncCheckpoint point => .error (.rpcReturnedInvalidData
        ("Cannot supply sync checkpoint to gas price: " ++ point.debug ++ ". Potential API bug?"))
  fromResponse resp := .ok resp.gasPrice

namespace Query

/-- `Query::args` of a view function. -/
def setArgs (q : Query ViewFunction) (args : List UInt8) : Query ViewFunction :=
  { q with method.function := q.method.function.setArgs args }

/-- `Query::args_json` of a view function. -/
def argsJson (q : Query ViewFunction) (serialized : Except String (List UInt8)) :
    Query ViewFunction :=
  { q with method.function := q.method.function.argsJson serialized }

/-- `Query::args_borsh` of a view function. -/
def argsBorsh (q : Query ViewFunction) (serialized : Except String (List UInt8)) :
    Query ViewFunction :=
  { q with method.function := q.method.function.argsBorsh serialized }

/-- `Query::prefix` of a view of the state. -/
def setPrefix (q : Query ViewState) (value : List UInt8) : Query ViewState :=
  { q with method.keyPrefix := some value }

end Query

/-! ### The client -/

/-- `Client::view`. -/
def view (contractId : AccountId) (function : String) : Query ViewFunction :=
  .new ⟨contractId, .new function⟩

/-- `Client::view_code`. -/
def viewCode (contractId : AccountId) : Query ViewCode := .new ⟨contractId⟩

/-- `Client::view_state`. -/
def viewState (contractId : AccountId) : Query ViewState := .new ⟨contractId, none⟩

/-- `Client::view_block`, before it is awaited. -/
def Query.viewBlock : Query ViewBlock := .new ⟨⟩

/-- `Client::view_access_key`. -/
def viewAccessKey (id : AccountId) (pk : PublicKey) : Query ViewAccessKey := .new ⟨id, pk⟩

/-- `Client::view_access_keys`. -/
def viewAccessKeys (id : AccountId) : Query ViewAccessKeyList := .new ⟨id⟩

/-- `Client::view_account`. -/
def viewAccount (accountId : AccountId) : Query ViewAccount := .new ⟨accountId⟩

/-- `Client::gas_price`. -/
def gasPrice : Query GasPrice := .new ⟨⟩

/-- The query for the latest block, awaited. -/
theorem viewBlock_eq : viewBlock = Query.viewBlock.intoFuture := by
  refine congrArg (Prog.op _) (funext fun reply => ?_)
  cases reply <;> rfl

/-! ### Chunks -/

/-- A query for a chunk. -/
structure QueryChunk where
  chunkRef : Option ChunkReference

namespace QueryChunk

/-- `QueryChunk::new`. -/
def new : QueryChunk := ⟨none⟩

/-- `QueryChunk::block_hash_and_shard`. -/
def blockHashAndShard (_ : QueryChunk) (hash : CryptoHash) (shardId : ShardId) : QueryChunk :=
  ⟨some (.blockShardId (.hash hash) shardId)⟩

/-- `QueryChunk::block_height_and_shard`. -/
def blockHeightAndShard (_ : QueryChunk) (height : BlockHeight) (shardId : ShardId) : QueryChunk :=
  ⟨some (.blockShardId (.height height) shardId)⟩

/-- `QueryChunk::chunk_hash`. -/
def chunkHash (_ : QueryChunk) (hash : CryptoHash) : QueryChunk := ⟨some (.chunkHash hash)⟩

/-- The reference that the query asks for: its own, or shard 0 of the latest block. -/
def chunkReference (q : QueryChunk) : Task (Result ChunkReference) :=
  match q.chunkRef with
  | some chunkRef => return .ok chunkRef
  | none => do
      match ← viewBlock with
      | .error err => return .error err
      | .ok blockView => return .ok (.blockShardId (.hash blockView.header.hash) 0)

/-- `QueryChunk::into_future`. -/
def intoFuture (q : QueryChunk) : Task (Result ChunkView) := do
  match ← q.chunkReference with
  | .error err => return .error err
  | .ok chunkReference =>
      match ← effect (.rpc (.chunk chunkReference)) with
      | .error err => return .error (.rpcChunkError err)
      | .ok chunkView => return .ok chunkView

end QueryChunk

/-- `Client::view_chunk`. -/
def viewChunk : QueryChunk := .new

end NearFetch
