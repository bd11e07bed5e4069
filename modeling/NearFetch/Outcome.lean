import NearFetch.MachineSum
import NearFetch.Rpc

/-! # Execution results (`result.rs`)

The result that the client makes of the outcome of a transaction, which keeps the final status
and the outcomes of the transaction and of its receipts.  An `ExecutionFinalResult` is turned into
an `ExecutionSuccess` or an error by `into_result`; both give access to the outcomes, the first
through `ExecutionDetails` and the second by itself.  Gas is added up as `u64`: whether an addition
that overflows stops the program or wraps depends on how the program was built (`Overflow`). -/

namespace NearFetch

open MachineSum

/-- `matches!(status, ExecutionStatusView::Failure(_))`. -/
def ExecutionStatusView.isFailure : ExecutionStatusView → Bool
  | .failure _ => true
  | _ => false

/-- The transaction and receipt details of a transaction execution. -/
structure ExecutionDetails where
  transaction : SignedTransactionView
  transactionOutcome : ExecutionOutcomeWithIdView
  receiptsOutcome : List ExecutionOutcomeWithIdView
deriving DecidableEq, Repr

namespace ExecutionDetails

variable (d : ExecutionDetails)

/-- `ExecutionDetails::outcome`. -/
def outcome : ExecutionOutcomeWithIdView := d.transactionOutcome

/-- `ExecutionDetails::receipt_outcomes`. -/
def receiptOutcomes : List ExecutionOutcomeWithIdView := d.receiptsOutcome

/-- `ExecutionDetails::outcomes`. -/
def outcomes : List ExecutionOutcomeWithIdView := [d.outcome] ++ d.receiptOutcomes

/-- `ExecutionDetails::receipt_failures`. -/
def receiptFailures : List ExecutionOutcomeWithIdView :=
  d.receiptOutcomes.filter fun receipt => receipt.outcome.status.isFailure

/-- `ExecutionDetails::failures`. -/
def failures : List ExecutionOutcomeWithIdView :=
  (if d.transactionOutcome.outcome.status.isFailure = true then [d.transactionOutcome] else []) ++
    d.receiptFailures

/-- `ExecutionDetails::logs`. -/
def logs : List String := d.outcomes.flatMap fun outcome => outcome.outcome.logs

end ExecutionDetails

/-! ### Successful executions -/

/-- What the client uses of the standard engine of `base64`. -/
structure Base64 where
  encode : List UInt8 → String
  decode : String → Except String (List UInt8)
  decode_encode : ∀ bytes, decode (encode bytes) = .ok bytes

/-- An encoding for runs on fixed inputs: one character for each byte. -/
def Base64.plain : Base64 where
  encode bytes := .ofList (bytes.map fun b => .ofNat b.toNat)
  decode s := .ok (s.toList.map fun c => .ofNat c.toNat)
  decode_encode bytes := by
    have hbyte : ∀ b : UInt8, UInt8.ofNat (Char.ofNat b.toNat).toNat = b := by
      intro b
      have hlt := b.toNat_lt
      have hvalid : b.toNat.isValidChar := by
        unfold Nat.isValidChar
        omega
      rw [Char.ofNat, dif_pos hvalid]
      exact UInt8.ofNat_toNat
    simp [String.toList_ofList, List.map_map, Function.comp_def, hbyte]

/-- The value returned from an execution, in base64. -/
structure Value where
  repr : String
deriving DecidableEq, Repr

/-- `Value::raw_bytes`. -/
def Value.rawBytes (b64 : Base64) (v : Value) : Result (List UInt8) :=
  match b64.decode v.repr with
  | .ok bytes => .ok bytes
  | .error info => .error (.base64 info)

theorem Value.rawBytes_encode (b64 : Base64) (bytes : List UInt8) :
    Value.rawBytes b64 ⟨b64.encode bytes⟩ = .ok bytes := by
  rw [rawBytes, b64.decode_encode]

/-- The result after evaluating the status of an execution. -/
structure ExecutionResult (α : Type) where
  totalGasBurnt : Gas
  value : α
  details : ExecutionDetails

/-- `ExecutionSuccess`. -/
abbrev ExecutionSuccess := ExecutionResult Value

namespace ExecutionResult

variable {α : Type} (r : ExecutionResult α)

/-- `ExecutionResult::outcome`. -/
def outcome : ExecutionOutcomeWithIdView := r.details.transactionOutcome

/-- `ExecutionResult::receipt_outcomes`. -/
def receiptOutcomes : List ExecutionOutcomeWithIdView := r.details.receiptsOutcome

/-- `ExecutionResult::outcomes`. -/
def outcomes : List ExecutionOutcomeWithIdView := [r.outcome] ++ r.receiptOutcomes

/-- `ExecutionResult::receipt_failures`. -/
def receiptFailures : List ExecutionOutcomeWithIdView :=
  r.receiptOutcomes.filter fun receipt => receipt.outcome.status.isFailure

/-- `ExecutionResult::failures`. -/
def failures : List ExecutionOutcomeWithIdView :=
  (if r.details.transactionOutcome.outcome.status.isFailure = true
    then [r.details.transactionOutcome] else []) ++ r.receiptFailures

/-- `ExecutionResult::logs`. -/
def logs : List String := r.outcomes.flatMap fun outcome => outcome.outcome.logs

end ExecutionResult

/-! ### Final results -/

/-- Execution related info found after performing a transaction. -/
structure ExecutionFinalResult where
  status : FinalExecutionStatus
  details : ExecutionDetails
deriving DecidableEq, Repr

namespace ExecutionFinalResult

/-- `ExecutionFinalResult::from_view`. -/
def fromView (view : FinalExecutionOutcomeView) : ExecutionFinalResult where
  status := view.status
  details :=
    { transaction := view.transaction
      transactionOutcome := view.transactionOutcome
      receiptsOutcome := view.receiptsOutcome }

@[simp] theorem fromView_status (view : FinalExecutionOutcomeView) :
    (fromView view).status = view.status := rfl

/-- The view is recovered from the result, so the conversion loses nothing. -/
theorem fromView_injective : Function.Injective fromView := by
  intro v v' h
  obtain ⟨hs, hd⟩ := ExecutionFinalResult.mk.inj h
  obtain ⟨ht, ho, hr⟩ := ExecutionDetails.mk.inj hd
  cases v
  cases v'
  simp_all

variable (r : ExecutionFinalResult)

/-- `ExecutionFinalResult::outcome`. -/
def outcome : ExecutionOutcomeWithIdView := r.details.outcome

/-- `ExecutionFinalResult::outcomes`. -/
def outcomes : List ExecutionOutcomeWithIdView := r.details.outcomes

/-- `ExecutionFinalResult::receipt_outcomes`. -/
def receiptOutcomes : List ExecutionOutcomeWithIdView := r.details.receiptOutcomes

/-- `ExecutionFinalResult::failures`. -/
def failures : List ExecutionOutcomeWithIdView := r.details.failures

/-- `ExecutionFinalResult::receipt_failures`. -/
def receiptFailures : List ExecutionOutcomeWithIdView := r.details.receiptFailures

/-- `ExecutionFinalResult::logs`. -/
def logs : List String := r.details.logs

/-- `ExecutionFinalResult::total_gas_burnt`; `none` is a stopped program. -/
def totalGasBurnt (mode : Overflow) : Option Gas := do
  let txGas := r.details.transactionOutcome.outcome.gasBurnt
  let receiptsGas ← MachineSum.sum mode (2 ^ 64)
    (r.details.receiptsOutcome.map fun t => t.outcome.gasBurnt)
  MachineSum.add mode (2 ^ 64) txGas receiptsGas

/-- `ExecutionFinalResult::into_result`. -/
def intoResult (b64 : Base64) (mode : Overflow) : Option (Result ExecutionSuccess) := do
  let totalGasBurnt ← r.totalGasBurnt mode
  match r.status with
  | .successValue value =>
      some (.ok { totalGasBurnt, value := ⟨b64.encode value⟩, details := r.details })
  | .failure txError => some (.error (.txExecution txError))
  | .notStarted => some (.error (.txStatus "NotStarted"))
  | .started => some (.error (.txStatus "Started"))

end ExecutionFinalResult

/-- The transaction has run to its end. -/
def FinalExecutionStatus.completed : FinalExecutionStatus → Bool
  | .successValue _ => true
  | .failure _ => true
  | .notStarted => false
  | .started => false

end NearFetch
