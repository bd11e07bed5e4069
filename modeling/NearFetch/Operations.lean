import NearFetch.Client
import NearFetch.Outcome

/-! # Builders, retries and transaction handles (`ops.rs`)

A `Function` and the two builders collect what a transaction does; a `RetryableTransaction` sends
it once or in the loop of `tokio_retry`; an `AsyncTransactionStatus` is the handle of a
transaction sent without waiting.  Failed serializations are kept in the builder and come up when
it is used.  `wait` polls without a bound in the source; here it takes the number of polls, and
its result is `none` while it is still polling. -/

namespace NearFetch

open Effects

/-! ### Functions -/

/-- `MAX_GAS`. -/
def maxGas : Gas := 300 * 10 ^ 12

/-- `DEFAULT_CALL_FN_GAS`. -/
def defaultCallFnGas : Gas := 10 * 10 ^ 12

/-- `DEFAULT_CALL_DEPOSIT`. -/
def defaultCallDeposit : NearToken := 0

/-- A function name with its arguments, deposit and gas. -/
structure Function where
  name : String
  args : Result (List UInt8)
  deposit : NearToken
  gas : Gas

namespace Function

/-- `Function::new`. -/
def new (name : String) : Function := ⟨name, .ok [], defaultCallDeposit, defaultCallFnGas⟩

/-- `Function::args`. -/
def setArgs (f : Function) (args : List UInt8) : Function :=
  match f.args with
  | .error _ => f
  | .ok _ => { f with args := .ok args }

/-- `Function::args_json`, given what `serde_json::to_vec` makes of the argument. -/
def argsJson (f : Function) (serialized : Except String (List UInt8)) : Function :=
  match serialized with
  | .ok args => { f with args := .ok args }
  | .error e => { f with args := .error (.serialization e) }

/-- `Function::args_borsh`, given what `borsh::to_vec` makes of the argument. -/
def argsBorsh (f : Function) (serialized : Except String (List UInt8)) : Function :=
  match serialized with
  | .ok args => { f with args := .ok args }
  | .error e => { f with args := .error (.io e) }

/-- `Function::deposit`. -/
def setDeposit (f : Function) (deposit : NearToken) : Function := { f with deposit }

/-- `Function::gas`. -/
def setGas (f : Function) (gas : Gas) : Function := { f with gas }

/-- `Function::max_gas`. -/
def setMaxGas (f : Function) : Function := f.setGas maxGas

/-- `Function::into_action`. -/
def intoAction (f : Function) : Result FunctionCallAction :=
  match f.args with
  | .error e => .error e
  | .ok args => .ok { args, methodName := f.name, gas := f.gas, deposit := f.deposit }

end Function

/-! ### Retrying -/

/-- `tokio_retry::Retry::start`: runs the action again after each delay as long as it fails, and
ends with its last result when the strategy is exhausted. -/
def retryStart {α : Type} : List ℕ → Task (Result α) → Task (Result α)
  | [], action => action
  | delay :: strategy, action => do
      match ← action with
      | .ok a => return .ok a
      | .error _ =>
          effect (.sleep delay)
          retryStart strategy action

/-- The delays of `ExponentialBackoff::from_millis(base).map(jitter).take(retries)`, where
`jitter i` is what the random factor makes of the `i`-th delay. -/
def exponentialDelays (base retries : ℕ) (jitter : ℕ → ℕ → ℕ) : List ℕ :=
  (List.range retries).map fun i => jitter i (min (base ^ (i + 1)) (2 ^ 64 - 1))

/-- A transaction ready to be sent; awaiting it sends it. -/
structure RetryableTransaction where
  signer : SignerExt
  receiverId : AccountId
  actions : Result (List Action)
  strategy : Option (List ℕ)
  waitUntil : TxExecutionStatus

namespace RetryableTransaction

/-- `RetryableTransaction::retry`. -/
def retry (t : RetryableTransaction) (strategy : List ℕ) : RetryableTransaction :=
  { t with strategy := some strategy }

/-- `RetryableTransaction::retry_exponential`. -/
def retryExponential (t : RetryableTransaction) (baseMillis maxRetries : ℕ) (jitter : ℕ → ℕ → ℕ) :
    RetryableTransaction :=
  t.retry (exponentialDelays baseMillis maxRetries jitter)

/-- `RetryableTransaction::wait_until`. -/
def setWaitUntil (t : RetryableTransaction) (waitUntil : TxExecutionStatus) :
    RetryableTransaction :=
  { t with waitUntil }

/-- `RetryableTransaction::into_future`. -/
def intoFuture (cr : Crypto) (t : RetryableTransaction) :
    Task (Result FinalExecutionOutcomeView) :=
  match t.actions with
  | .error e => return .error e
  | .ok actions =>
      let action := sendTxOnce cr t.signer t.receiverId actions t.waitUntil
      match t.strategy with
      | some strategy => retryStart strategy action
      | none => action

/-- A transaction without a strategy is one without delays. -/
theorem intoFuture_ok (cr : Crypto) {t : RetryableTransaction} {actions : List Action}
    (h : t.actions = .ok actions) : t.intoFuture cr =
      retryStart (t.strategy.getD []) (sendTxOnce cr t.signer t.receiverId actions t.waitUntil) := by
  rw [intoFuture, h]
  cases t.strategy <;> rfl

end RetryableTransaction

/-- `Client::send_tx`. -/
def sendTx (signer : SignerExt) (receiverId : AccountId) (actions : List Action) :
    RetryableTransaction where
  signer := signer
  receiverId := receiverId
  actions := .ok actions
  strategy := none
  waitUntil := .default

/-! ### Handles of asynchronous transactions -/

/-- `std::task::Poll`. -/
inductive Poll (α : Type) where
  | ready (a : α)
  | pending

/-- The handle of a transaction that was sent without waiting. -/
structure AsyncTransactionStatus where
  senderId : AccountId
  hash : CryptoHash
deriving DecidableEq, Repr

namespace AsyncTransactionStatus

variable (h : AsyncTransactionStatus)

/-- `AsyncTransactionStatus::status`. -/
def status : Task (Result (Poll ExecutionFinalResult)) := do
  match ← statusTxAsync h.senderId h.hash .included with
  | .ok view => return .ok (.ready (.fromView view))
  | .error (.rpcTransactionError err) =>
      match err with
      | .serverError (.handlerError (.unknownTransaction _)) => return .ok .pending
      | .serverError (.handlerError .timeoutError) => return .ok .pending
      | _ => return .error (.rpcTransactionError err)
  | .error .rpcTransactionPending => return .ok .pending
  | .error other => return .error other

/-- `AsyncTransactionStatus::wait`, for the given number of polls. -/
def wait (interval : ℕ) : ℕ → Task (Option (Result ExecutionFinalResult))
  | 0 => return none
  | polls + 1 => do
      match ← h.status with
      | .error err => return some (.error err)
      | .ok (.ready val) => return some (.ok val)
      | .ok .pending =>
          effect (.sleep interval)
          wait interval polls

/-- `AsyncTransactionStatus::wait_default`, and `.await` on the handle. -/
def waitDefault (polls : ℕ) : Task (Option (Result ExecutionFinalResult)) := h.wait 300 polls

/-- `AsyncTransactionStatus::wait_until`. -/
def waitUntil (level : TxExecutionStatus) : Task (Result ExecutionFinalResult) := do
  match ← statusTxAsync h.senderId h.hash level with
  | .ok view => return .ok (.fromView view)
  | .error err => return .error err

end AsyncTransactionStatus

/-! ### Function call transactions -/

/-- The builder of a transaction that calls one function. -/
structure FunctionCallTransaction where
  signer : SignerExt
  receiverId : AccountId
  function : Function
  retryStrategy : Option (List ℕ)
  waitUntil : TxExecutionStatus

namespace FunctionCallTransaction

variable (t : FunctionCallTransaction)

/-- `FunctionCallTransaction::args`. -/
def setArgs (args : List UInt8) : FunctionCallTransaction :=
  { t with function := t.function.setArgs args }

/-- `FunctionCallTransaction::args_json`. -/
def argsJson (serialized : Except String (List UInt8)) : FunctionCallTransaction :=
  { t with function := t.function.argsJson serialized }

/-- `FunctionCallTransaction::args_borsh`. -/
def argsBorsh (serialized : Except String (List UInt8)) : FunctionCallTransaction :=
  { t with function := t.function.argsBorsh serialized }

/-- `FunctionCallTransaction::deposit`. -/
def setDeposit (deposit : NearToken) : FunctionCallTransaction :=
  { t with function := t.function.setDeposit deposit }

/-- `FunctionCallTransaction::gas`. -/
def setGas (gas : Gas) : FunctionCallTransaction := { t with function := t.function.setGas gas }

/-- `FunctionCallTransaction::max_gas`. -/
def setMaxGas : FunctionCallTransaction := t.setGas maxGas

/-- `FunctionCallTransaction::retry`. -/
def retry (strategy : List ℕ) : FunctionCallTransaction := { t with retryStrategy := some strategy }

/-- `FunctionCallTransaction::retry_exponential`. -/
def retryExponential (baseMillis maxRetries : ℕ) (jitter : ℕ → ℕ → ℕ) : FunctionCallTransaction :=
  t.retry (exponentialDelays baseMillis maxRetries jitter)

/-- `FunctionCallTransaction::wait_until`. -/
def setWaitUntil (waitUntil : TxExecutionStatus) : FunctionCallTransaction := { t with waitUntil }

/-- `FunctionCallTransaction::transact`. -/
def transact (cr : Crypto) : Task (Result ExecutionFinalResult) := do
  let tx : RetryableTransaction :=
    { signer := t.signer
      receiverId := t.receiverId
      actions := t.function.intoAction.map fun action => [.functionCall action]
      strategy := t.retryStrategy
      waitUntil := t.waitUntil }
  let result ← tx.intoFuture cr
  return result.map .fromView

/-- `FunctionCallTransaction::transact_async`. -/
def transactAsync (cr : Crypto) : Task (Result AsyncTransactionStatus) :=
  match t.function.intoAction with
  | .error err => return .error err
  | .ok action => do
      match ← sendTxAsync cr t.signer t.receiverId [.functionCall action] with
      | .error err => return .error err
      | .ok hash => return .ok ⟨t.receiverId, hash⟩

end FunctionCallTransaction

/-- `Client::call`. -/
def call (signer : SignerExt) (contractId : AccountId) (function : String) :
    FunctionCallTransaction where
  signer := signer
  receiverId := contractId
  function := .new function
  retryStrategy := none
  waitUntil := .default

/-! ### Batch transactions -/

/-- The builder of a transaction with any number of actions (`ops::Transaction`). -/
structure BatchTransaction where
  signer : SignerExt
  receiverId : AccountId
  actions : Result (List Action)
  retryStrategy : Option (List ℕ)
  waitUntil : TxExecutionStatus

namespace BatchTransaction

variable (t : BatchTransaction)

/-- `if let Ok(actions) = &mut self.actions { actions.push(action) }`, which every action
builder does. -/
def push (action : Action) : BatchTransaction :=
  match t.actions with
  | .ok actions => { t with actions := .ok (actions ++ [action]) }
  | .error _ => t

/-- `Transaction::add_key`. -/
def addKey (pk : PublicKey) (ak : AccessKey) : BatchTransaction := t.push (.addKey pk ak)

/-- `Transaction::call`. -/
def call (function : Function) : BatchTransaction :=
  match function.args with
  | .error err => { t with actions := .error err }
  | .ok args => t.push (.functionCall
      { methodName := function.name, args, deposit := function.deposit, gas := function.gas })

/-- `Transaction::create_account`. -/
def createAccount : BatchTransaction := t.push .createAccount

/-- `Transaction::delete_account`. -/
def deleteAccount (beneficiaryId : AccountId) : BatchTransaction :=
  t.push (.deleteAccount beneficiaryId)

/-- `Transaction::delete_key`. -/
def deleteKey (pk : PublicKey) : BatchTransaction := t.push (.deleteKey pk)

/-- `Transaction::deploy`. -/
def deploy (code : List UInt8) : BatchTransaction := t.push (.deployContract code)

/-- `Transaction::stake`. -/
def stake (stake : NearToken) (pk : PublicKey) : BatchTransaction := t.push (.stake stake pk)

/-- `Transaction::transfer`. -/
def transfer (deposit : NearToken) : BatchTransaction := t.push (.transfer deposit)

/-- `Transaction::retry`. -/
def retry (strategy : List ℕ) : BatchTransaction := { t with retryStrategy := some strategy }

/-- `Transaction::retry_exponential`. -/
def retryExponential (baseMillis maxRetries : ℕ) (jitter : ℕ → ℕ → ℕ) : BatchTransaction :=
  t.retry (exponentialDelays baseMillis maxRetries jitter)

/-- `Transaction::wait_until`. -/
def setWaitUntil (waitUntil : TxExecutionStatus) : BatchTransaction := { t with waitUntil }

/-- `Transaction::transact`. -/
def transact (cr : Crypto) : Task (Result FinalExecutionOutcomeView) :=
  let tx : RetryableTransaction :=
    { signer := t.signer
      receiverId := t.receiverId
      actions := t.actions
      strategy := t.retryStrategy
      waitUntil := t.waitUntil }
  tx.intoFuture cr

/-- `Transaction::transact_async`. -/
def transactAsync (cr : Crypto) : Task (Result AsyncTransactionStatus) :=
  match t.actions with
  | .error err => return .error err
  | .ok actions => do
      match ← sendTxAsync cr t.signer t.receiverId actions with
      | .error err => return .error err
      | .ok hash => return .ok ⟨t.receiverId, hash⟩

end BatchTransaction

/-- `Client::batch`. -/
def batch (signer : SignerExt) (receiverId : AccountId) : BatchTransaction where
  signer := signer
  receiverId := receiverId
  actions := .ok []
  retryStrategy := none
  waitUntil := .default

end NearFetch
