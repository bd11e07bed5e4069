import NearFetch.Queries

/-! # What views mean

What the client can view, with whatever setters for the block, makes one call: it asks for the block that
the last setter names, or for the latest one, and its result is the reply taken apart.  A view of a function
whose arguments hold an error makes no call at all.  `View.Means` says this for each view, and `Asks` what
it is for a query, of whose response only one kind will do.  A query for a chunk that has no reference asks
for the latest block first (`QueryChunk.Means`).

The programs do just that, whatever the replies are (`View.returns_iff`, `QueryChunk.returns_iff`). -/

namespace NearFetch

open Effects

/-! ### Views -/

/-- What the client can view, up to the block. -/
inductive View where
  | function (view : ViewFunction)
  | code (view : ViewCode)
  | account (view : ViewAccount)
  | block (view : ViewBlock)
  | state (view : ViewState)
  | accessKey (view : ViewAccessKey)
  | accessKeyList (view : ViewAccessKeyList)
  | gasPrice (view : GasPrice)

/-- The setters of every `Query` for the block. -/
inductive BlockSetter where
  | blockHeight (height : BlockHeight)
  | blockHash (hash : CryptoHash)

/-- The setters of a `Query` whose method is an `RpcQueryRequest`. -/
inductive QuerySetter where
  | block (setter : BlockSetter)
  | finality (value : Finality)

section setters

variable {T Output : Type}

def BlockSetter.set (q : Query T) : BlockSetter → Query T
  | .blockHeight height => q.blockHeight height
  | .blockHash hash => q.blockHash hash

def QuerySetter.set [ProcessQuery T RpcQueryRequest Output] (q : Query T) : QuerySetter → Query T
  | .block setter => setter.set q
  | .finality value => q.finality value

/-- The reference that a setter stores. -/
def BlockSetter.reference : BlockSetter → BlockReference
  | .blockHeight height => .blockId (.height height)
  | .blockHash hash => .blockId (.hash hash)

def QuerySetter.reference : QuerySetter → BlockReference
  | .block setter => setter.reference
  | .finality value => .finality value

theorem BlockSetter.set_eq (q : Query T) (setter : BlockSetter) :
    setter.set q = ⟨q.method, some setter.reference⟩ := by
  cases setter <;> rfl

theorem QuerySetter.set_eq [ProcessQuery T RpcQueryRequest Output] (q : Query T)
    (setter : QuerySetter) : setter.set q = ⟨q.method, some setter.reference⟩ := by
  rcases setter with setter | value
  · exact setter.set_eq q
  · rfl

/-- Of several setters the last one counts. -/
theorem foldl_set {σ : Type} {set : Query T → σ → Query T} {reference : σ → BlockReference}
    (hset : ∀ q x, set q x = ⟨q.method, some (reference x)⟩) (q : Query T) (setters : List σ) :
    setters.foldl set q = ⟨q.method, ((setters.map reference).getLast?).or q.blockRef⟩ := by
  induction setters generalizing q with
  | nil => rfl
  | cons x setters ih =>
      rw [List.foldl_cons, hset, ih, List.map_cons, List.getLast?_cons]
      cases (setters.map reference).getLast? <;> rfl

end setters

/-! ### What a view means -/

/-- The RPC methods of views. -/
inductive Method where
  | query
  | block
  | gasPrice

namespace Method

/-- What may be set on a query with the method. -/
abbrev Setter : Method → Type
  | .query => QuerySetter
  | .block => BlockSetter
  | .gasPrice => BlockSetter

def reference : (m : Method) → m.Setter → BlockReference
  | .query => QuerySetter.reference
  | .block => BlockSetter.reference
  | .gasPrice => BlockSetter.reference

/-- The block that a query with these setters asks for. -/
def asksFor (m : Method) (setters : List m.Setter) : BlockReference :=
  ((setters.map m.reference).getLast?).getD .latest

end Method

section answers

variable {α : Type}

/-- The result of a query, of whose response one kind is wanted. -/
def answered (wanted : QueryResponseKind → Option α) (text : String) :
    Except (JsonRpcError RpcQueryError) RpcQueryResponse → Result α
  | .error err => .error (.rpc (.query err))
  | .ok resp => (wanted resp.kind).elim (.error (.rpcReturnedInvalidData text)) .ok

/-- One query at the block, and its result. -/
def Asks (reference : BlockReference) (request : QueryRequest)
    (wanted : QueryResponseKind → Option α) (text : String) (l : List (Act Op Op.Reply))
    (r : Result α) : Prop :=
  ∃ reply, l = [⟨.rpc (.query reference request), reply⟩] ∧ r = answered wanted text reply

end answers

namespace QueryResponseKind

def viewResult? : QueryResponseKind → Option ViewResult
  | .callResult result => some ⟨result.result, result.logs⟩
  | _ => none

def code? : QueryResponseKind → Option (List UInt8)
  | .viewCode contract => some contract.code
  | _ => none

def account? : QueryResponseKind → Option AccountView
  | .viewAccount account => some account
  | _ => none

def state? : QueryResponseKind → Option ViewStateResult
  | .viewState state => some state
  | _ => none

def accessKey? : QueryResponseKind → Option AccessKeyView
  | .accessKey key => some key
  | _ => none

def accessKeyList? : QueryResponseKind → Option AccessKeyList
  | .accessKeyList keylist => some keylist
  | _ => none

end QueryResponseKind

/-- The block that a reference names itself. -/
def BlockReference.blockId? : BlockReference → Option BlockId
  | .blockId id => some id
  | _ => none

namespace View

abbrev method : View → Method
  | .block _ => .block
  | .gasPrice _ => .gasPrice
  | _ => .query

abbrev Output : View → Type
  | .function _ => ViewResult
  | .code _ => List UInt8
  | .account _ => AccountView
  | .block _ => BlockView
  | .state _ => ViewStateResult
  | .accessKey _ => AccessKeyView
  | .accessKeyList _ => AccessKeyList
  | .gasPrice _ => NearToken

/-- A view with setters, awaited. -/
def task : (v : View) → List v.method.Setter → Task (Result v.Output)
  | .function view, setters => (setters.foldl QuerySetter.set (.new view)).intoFuture
  | .code view, setters => (setters.foldl QuerySetter.set (.new view)).intoFuture
  | .account view, setters => (setters.foldl QuerySetter.set (.new view)).intoFuture
  | .block view, setters => (setters.foldl BlockSetter.set (.new view)).intoFuture
  | .state view, setters => (setters.foldl QuerySetter.set (.new view)).intoFuture
  | .accessKey view, setters => (setters.foldl QuerySetter.set (.new view)).intoFuture
  | .accessKeyList view, setters => (setters.foldl QuerySetter.set (.new view)).intoFuture
  | .gasPrice view, setters => (setters.foldl BlockSetter.set (.new view)).intoFuture

/-- What a view at a block does, and its result. -/
def Means : (v : View) → BlockReference → List (Act Op Op.Reply) → Result v.Output → Prop
  | .function view, reference, l, r =>
      (∃ err, view.function.args = .error err ∧ l = [] ∧ r = .error err) ∨
      ∃ args, view.function.args = .ok args ∧
        Asks reference (.callFunction view.accountId view.function.name args)
          QueryResponseKind.viewResult? "while querying account" l r
  | .code view, reference, l, r =>
      Asks reference (.viewCode view.accountId) QueryResponseKind.code? "while querying code" l r
  | .account view, reference, l, r =>
      Asks reference (.viewAccount view.accountId) QueryResponseKind.account?
        "while querying account" l r
  | .block _, reference, l, r =>
      ∃ reply, l = [⟨.rpc (.block reference), reply⟩] ∧
        r = reply.mapError fun err => .rpc (.block err)
  | .state view, reference, l, r =>
      Asks reference (.viewState view.accountId (view.keyPrefix.getD []) none none false)
        QueryResponseKind.state? "while querying state" l r
  | .accessKey view, reference, l, r =>
      Asks reference (.viewAccessKey view.accountId view.publicKey) QueryResponseKind.accessKey?
        "while querying access key" l r
  | .accessKeyList view, reference, l, r =>
      Asks reference (.viewAccessKeyList view.accountId) QueryResponseKind.accessKeyList?
        "while querying access keys" l r
  | .gasPrice _, reference, l, r =>
      ∃ reply, l = [⟨.rpc (.gasPrice reference.blockId?), reply⟩] ∧
        r = (reply.mapError fun err => .rpc (.gasPrice err)).map GasPriceView.gasPrice

end View

/-- What a query for a chunk does, and its result. -/
def QueryChunk.Means (q : QueryChunk) (l : List (Act Op Op.Reply)) (r : Result ChunkView) : Prop :=
  (∃ reference reply, q.chunkRef = some reference ∧ l = [⟨.rpc (.chunk reference), reply⟩] ∧
    r = reply.mapError .rpcChunkError) ∨
  q.chunkRef = none ∧
    ((∃ err, l = [⟨.rpc (.block .latest), .error err⟩] ∧ r = .error (.rpc (.block err))) ∨
      ∃ block reply, l = [⟨.rpc (.block .latest), .ok block⟩,
          ⟨.rpc (.chunk (.blockShardId (.hash block.header.hash) 0)), reply⟩] ∧
        r = reply.mapError .rpcChunkError)

/-! ### Paths of a query -/

section paths

variable {T Method Output : Type} [RpcMethod Method] [ProcessQuery T Method Output] {q : Query T}
  {l : List (Act Op Op.Reply)} {r : Result Output}

/-- The result of a query, given the reply to its request. -/
def received (T : Type) [ProcessQuery T Method Output]
    (reply : Except (JsonRpcError (RpcMethod.MethodError Method)) (RpcMethod.Response Method)) :
    Result Output :=
  match reply with
  | .error err => .error (.rpc (RpcMethod.boxed (M := Method) err))
  | .ok resp => ProcessQuery.fromResponse (T := T) resp

theorem returns_refused {err : Error}
    (hq : ProcessQuery.intoRequest q.method (q.blockRef.getD .latest) = .error err) :
    Returns q.intoFuture l r ↔ l = [] ∧ r = .error err := by
  rw [Query.intoFuture, hq]
  exact returns_pure

theorem intoFuture_eq {method : Method}
    (hq : ProcessQuery.intoRequest q.method (q.blockRef.getD .latest) = .ok method) :
    q.intoFuture = sendQuery method >>= fun reply => pure (received T reply) := by
  rw [Query.intoFuture, hq]
  refine congrArg (sendQuery method >>= ·) (funext fun reply => ?_)
  cases reply <;> rfl

theorem returns_sent {method : Method}
    (hq : ProcessQuery.intoRequest q.method (q.blockRef.getD .latest) = .ok method) :
    Returns q.intoFuture l r ↔
      ∃ reply, l = [⟨.rpc (RpcMethod.call method), reply⟩] ∧
        r = received T (RpcMethod.reply method reply) := by
  rw [intoFuture_eq hq]
  constructor
  · intro h
    obtain ⟨reply, l', rfl, hend⟩ := returns_op.mp h
    obtain ⟨rfl, rfl⟩ := returns_pure.mp hend
    exact ⟨reply, rfl, rfl⟩
  · rintro ⟨reply, rfl, rfl⟩
    exact returns_op.mpr ⟨reply, [], rfl, returns_pure.mpr ⟨rfl, rfl⟩⟩

end paths

section views

variable {l : List (Act Op Op.Reply)}

theorem query_returns {T Output : Type} [ProcessQuery T RpcQueryRequest Output] (view : T)
    (setters : List QuerySetter) (request : QueryRequest) (wanted : QueryResponseKind → Option Output)
    (text : String) {r : Result Output}
    (hrequest : ∀ reference, ProcessQuery.intoRequest view reference =
      .ok (⟨reference, request⟩ : RpcQueryRequest))
    (hwanted : ∀ kind hash height,
      ProcessQuery.fromResponse (T := T) (⟨kind, hash, height⟩ : RpcQueryResponse) =
        (wanted kind).elim (.error (.rpcReturnedInvalidData text)) .ok) :
    Returns (setters.foldl QuerySetter.set (.new view)).intoFuture l r ↔
      Asks (Method.query.asksFor setters) request wanted text l r := by
  have hanswered : ∀ reply, received T (RpcMethod.reply (⟨Method.query.asksFor setters, request⟩ :
      RpcQueryRequest) reply) = answered wanted text reply := by
    rintro (err | resp)
    · rfl
    · exact hwanted resp.kind resp.blockHash resp.blockHeight
  rw [foldl_set QuerySetter.set_eq, Query.new, Option.or_none, returns_sent (hrequest _)]
  refine exists_congr fun reply => and_congr_right fun _ => ?_
  rw [← hanswered]
  exact Iff.rfl

/-- A setter of a query for the gas price names a block, and no setter is the latest one. -/
theorem gasPrice_request (view : GasPrice) (setters : List BlockSetter) :
    ProcessQuery.intoRequest view (Method.gasPrice.asksFor setters) =
      .ok (⟨(Method.gasPrice.asksFor setters).blockId?⟩ : RpcGasPriceRequest) := by
  rw [Method.asksFor]
  cases hget : (setters.map Method.gasPrice.reference).getLast? with
  | none => rfl
  | some reference =>
      obtain ⟨setter, -, rfl⟩ := List.mem_map.mp (List.mem_of_getLast? hget)
      cases setter <;> rfl

/-- A view with setters does what it means at the block that the last of them names. -/
theorem View.returns_iff {v : View} {setters : List v.method.Setter} {r : Result v.Output} :
    Returns (v.task setters) l r ↔ v.Means (v.method.asksFor setters) l r := by
  cases v with
  | function view =>
      cases hargs : view.function.args with
      | error err =>
          have hrequest : ∀ reference, ProcessQuery.intoRequest view reference =
              (.error err : Result RpcQueryRequest) := by
            intro reference
            simp only [ProcessQuery.intoRequest, hargs]
          rw [View.task, foldl_set QuerySetter.set_eq, returns_refused (hrequest _)]
          simp [View.Means, hargs]
      | ok args =>
          have hrequest : ∀ reference, ProcessQuery.intoRequest view reference =
              .ok (⟨reference, .callFunction view.accountId view.function.name args⟩ :
                RpcQueryRequest) := by
            intro reference
            simp only [ProcessQuery.intoRequest, hargs]
          have hwanted : ∀ kind hash height,
              ProcessQuery.fromResponse (T := ViewFunction) (⟨kind, hash, height⟩ : RpcQueryResponse) =
                (kind.viewResult?).elim (.error (.rpcReturnedInvalidData "while querying account")) .ok := by
            intro kind hash height
            cases kind <;> rfl
          rw [View.task, query_returns view setters _ _ _ hrequest hwanted]
          simp [View.Means, hargs]
  | code view =>
      exact query_returns view setters _ _ _ (fun _ => rfl) fun kind _ _ => by cases kind <;> rfl
  | account view =>
      exact query_returns view setters _ _ _ (fun _ => rfl) fun kind _ _ => by cases kind <;> rfl
  | block view =>
      have hrequest : ProcessQuery.intoRequest view (Method.block.asksFor setters) =
          .ok (⟨Method.block.asksFor setters⟩ : RpcBlockRequest) := rfl
      rw [View.task, foldl_set BlockSetter.set_eq, Query.new, Option.or_none, returns_sent hrequest]
      refine exists_congr fun reply => and_congr_right fun _ => ?_
      cases reply <;> exact Iff.rfl
  | state view =>
      exact query_returns view setters _ _ _ (fun _ => rfl) fun kind _ _ => by cases kind <;> rfl
  | accessKey view =>
      exact query_returns view setters _ _ _ (fun _ => rfl) fun kind _ _ => by cases kind <;> rfl
  | accessKeyList view =>
      exact query_returns view setters _ _ _ (fun _ => rfl) fun kind _ _ => by cases kind <;> rfl
  | gasPrice view =>
      rw [View.task, foldl_set BlockSetter.set_eq, Query.new, Option.or_none,
        returns_sent (gasPrice_request view setters)]
      refine exists_congr fun reply => and_congr_right fun _ => ?_
      cases reply <;> exact Iff.rfl

theorem chunk_returns {reference : ChunkReference} {r : Result ChunkView} :
    Returns (do
      match ← effect (.rpc (.chunk reference)) with
      | .error err => return .error (.rpcChunkError err)
      | .ok chunkView => return .ok chunkView) l r ↔
      ∃ reply, l = [⟨.rpc (.chunk reference), reply⟩] ∧ r = reply.mapError .rpcChunkError := by
  constructor
  · intro h
    obtain ⟨reply, l', rfl, hend⟩ := returns_effect.mp h
    cases reply with
    | error err =>
        obtain ⟨rfl, rfl⟩ := returns_pure.mp hend
        exact ⟨.error err, rfl, rfl⟩
    | ok chunkView =>
        obtain ⟨rfl, rfl⟩ := returns_pure.mp hend
        exact ⟨.ok chunkView, rfl, rfl⟩
  · rintro ⟨reply, rfl, rfl⟩
    cases reply <;> exact returns_effect.mpr ⟨_, [], rfl, returns_pure.mpr ⟨rfl, rfl⟩⟩

theorem QueryChunk.returns_iff {q : QueryChunk} {r : Result ChunkView} :
    Returns q.intoFuture l r ↔ q.Means l r := by
  obtain ⟨chunkRef⟩ := q
  cases chunkRef with
  | some reference =>
      have hsent : Returns (QueryChunk.mk (some reference)).intoFuture l r ↔
          ∃ reply, l = [⟨.rpc (.chunk reference), reply⟩] ∧ r = reply.mapError .rpcChunkError :=
        chunk_returns
      rw [hsent]
      simp [QueryChunk.Means]
  | none =>
      constructor
      · intro h
        obtain ⟨reply, l', rfl, hend⟩ := returns_op.mp h
        cases reply with
        | error err =>
            obtain ⟨rfl, rfl⟩ := returns_pure.mp hend
            exact .inr ⟨rfl, .inl ⟨err, rfl, rfl⟩⟩
        | ok block =>
            obtain ⟨reply, rfl, rfl⟩ := chunk_returns.mp hend
            exact .inr ⟨rfl, .inr ⟨block, reply, rfl, rfl⟩⟩
      · rintro (⟨reference, reply, hsome, -⟩ | ⟨-, ⟨err, rfl, rfl⟩ | ⟨block, reply, rfl, rfl⟩⟩)
        · cases hsome
        · exact returns_op.mpr ⟨.error err, [], rfl, returns_pure.mpr ⟨rfl, rfl⟩⟩
        · exact returns_op.mpr ⟨.ok block, _, rfl, chunk_returns.mpr ⟨reply, rfl, rfl⟩⟩

end views

end NearFetch
