import Mathlib.Data.List.Basic
import Mathlib.Algebra.Group.Nat.Defs

/-! # The NEAR types that the client handles

Accounts, keys, transactions and execution outcomes, as `near-account-id`, `near-crypto` and
`near-primitives` define them, with the fields that the client builds or reads.  Integers of
fixed width are natural numbers here; where an addition can wrap, the function that adds
says so.  The cryptography itself is not part of the repository: `Crypto` is what the
client relies on. -/

namespace NearFetch

structure AccountId where
  name : String
deriving DecidableEq, Repr

structure PublicKey where
  bytes : List UInt8
deriving DecidableEq, Repr

structure SecretKey where
  bytes : List UInt8
deriving DecidableEq, Repr

structure Signature where
  bytes : List UInt8
deriving DecidableEq, Repr

structure CryptoHash where
  bytes : List UInt8
deriving DecidableEq, Repr

/-- A `u64` nonce of an access key. -/
abbrev Nonce := ℕ

abbrev BlockHeight := ℕ

/-- `Gas`, a `u64` number of gas units. -/
abbrev Gas := ℕ

/-- `NearToken`, a `u128` number of yoctoNEAR. -/
abbrev NearToken := ℕ

/-! ### Transactions -/

inductive AccessKeyPermission where
  | functionCall (allowance : Option NearToken) (receiverId : String) (methodNames : List String)
  | fullAccess
deriving DecidableEq, Repr

structure AccessKey where
  nonce : Nonce
  permission : AccessKeyPermission
deriving DecidableEq, Repr

structure FunctionCallAction where
  methodName : String
  args : List UInt8
  gas : Gas
  deposit : NearToken
deriving DecidableEq, Repr

/-- The actions of a transaction; `other` stands for the kinds that no builder of the client makes. -/
inductive Action where
  | createAccount
  | deployContract (code : List UInt8)
  | functionCall (call : FunctionCallAction)
  | transfer (deposit : NearToken)
  | stake (stake : NearToken) (publicKey : PublicKey)
  | addKey (publicKey : PublicKey) (accessKey : AccessKey)
  | deleteKey (publicKey : PublicKey)
  | deleteAccount (beneficiaryId : AccountId)
  | other (borsh : List UInt8)
deriving DecidableEq, Repr

/-- `Transaction::V0`, the only version that the client makes. -/
structure Transaction where
  signerId : AccountId
  publicKey : PublicKey
  nonce : Nonce
  receiverId : AccountId
  blockHash : CryptoHash
  actions : List Action
deriving DecidableEq, Repr

structure SignedTransaction where
  signature : Signature
  transaction : Transaction
deriving DecidableEq, Repr

/-- What the client uses of `near-crypto` and of the transaction hash.  A signature verifies
under a public key exactly when it was made with the matching secret key. -/
structure Crypto where
  publicKey : SecretKey → PublicKey
  sign : SecretKey → List UInt8 → Signature
  verify : PublicKey → List UInt8 → Signature → Bool
  getHash : Transaction → CryptoHash
  emptyPublicKey : PublicKey
  emptySignature : Signature
  verify_sign : ∀ pk sk data, verify pk data (sign sk data) = true ↔ publicKey sk = pk

/-- Cryptography for runs on fixed inputs: a key pair is two copies of the same bytes, and a
signature shows the key and the data. -/
def Crypto.transparent : Crypto where
  publicKey sk := ⟨sk.bytes⟩
  sign sk data := ⟨sk.bytes ++ data⟩
  verify pk data signature := decide (signature.bytes = pk.bytes ++ data)
  getHash tx := ⟨tx.publicKey.bytes ++ [UInt8.ofNat tx.nonce]⟩
  emptyPublicKey := ⟨[]⟩
  emptySignature := ⟨[]⟩
  verify_sign pk sk data := by
    cases pk
    simp

/-! ### Execution levels and outcomes -/

/-- How far the network has taken a transaction, in the order in which the levels are reached. -/
inductive TxExecutionStatus where
  | none
  | included
  | executedOptimistic
  | includedFinal
  | executed
  | final
deriving DecidableEq, Repr

namespace TxExecutionStatus

/-- `TxExecutionStatus::default()`. -/
def default : TxExecutionStatus := .executedOptimistic

end TxExecutionStatus

/-- Errors that make a transaction invalid; `other` stands for the kinds that the client does not
tell apart. -/
inductive InvalidTxError where
  | invalidNonce (txNonce akNonce : Nonce)
  | other (name : String)
deriving DecidableEq, Repr

/-- Kinds of action errors, with the same `other`. -/
inductive ActionErrorKind where
  | delegateActionInvalidNonce (delegateNonce akNonce : Nonce)
  | other (name : String)
deriving DecidableEq, Repr

structure ActionError where
  index : Option ℕ
  kind : ActionErrorKind
deriving DecidableEq, Repr

inductive TxExecutionError where
  | actionError (error : ActionError)
  | invalidTxError (error : InvalidTxError)
deriving DecidableEq, Repr

inductive FinalExecutionStatus where
  | notStarted
  | started
  | failure (error : TxExecutionError)
  | successValue (value : List UInt8)
deriving DecidableEq, Repr

inductive ExecutionStatusView where
  | unknown
  | failure (error : TxExecutionError)
  | successValue (value : List UInt8)
  | successReceiptId (id : CryptoHash)
deriving DecidableEq, Repr

structure ExecutionOutcomeView where
  logs : List String
  gasBurnt : Gas
  status : ExecutionStatusView
deriving DecidableEq, Repr

structure ExecutionOutcomeWithIdView where
  id : CryptoHash
  outcome : ExecutionOutcomeView
deriving DecidableEq, Repr

structure SignedTransactionView where
  signerId : AccountId
  publicKey : PublicKey
  nonce : Nonce
  receiverId : AccountId
  signature : Signature
  hash : CryptoHash
deriving DecidableEq, Repr

structure FinalExecutionOutcomeView where
  status : FinalExecutionStatus
  transaction : SignedTransactionView
  transactionOutcome : ExecutionOutcomeWithIdView
  receiptsOutcome : List ExecutionOutcomeWithIdView
deriving DecidableEq, Repr

structure ReceiptView where
  receiptId : CryptoHash
deriving DecidableEq, Repr

structure FinalExecutionOutcomeWithReceiptView where
  finalOutcome : FinalExecutionOutcomeView
  receipts : List ReceiptView
deriving DecidableEq, Repr

inductive FinalExecutionOutcomeViewEnum where
  | finalExecutionOutcome (outcome : FinalExecutionOutcomeView)
  | finalExecutionOutcomeWithReceipt (outcome : FinalExecutionOutcomeWithReceiptView)
deriving DecidableEq, Repr

/-- `FinalExecutionOutcomeViewEnum::into_outcome`: the outcome that either variant holds. -/
def FinalExecutionOutcomeViewEnum.intoOutcome :
    FinalExecutionOutcomeViewEnum → FinalExecutionOutcomeView
  | .finalExecutionOutcome outcome => outcome
  | .finalExecutionOutcomeWithReceipt outcome => outcome.finalOutcome

structure BlockHeaderView where
  hash : CryptoHash
  height : BlockHeight
deriving DecidableEq, Repr

structure BlockView where
  header : BlockHeaderView
deriving DecidableEq, Repr

structure AccessKeyView where
  nonce : Nonce
  permission : AccessKeyPermission
deriving DecidableEq, Repr

end NearFetch
