import NearFetch.Outcome

/-! # The gas of an execution

`total_gas_burnt` adds the gas of the transaction to the sum of the gas of the receipts, and
`into_result` computes it before it looks at the status.  So a total that is not a `u64` falsifies it,
or stops even the conversion of a failed execution (`gasAccounted_iff`). -/

namespace NearFetch

open MachineSum

namespace ExecutionFinalResult

variable (r : ExecutionFinalResult)

/-- The gas of all outcomes, as a number. -/
def gasOfOutcomes : ℕ := (r.outcomes.map fun outcome => outcome.outcome.gasBurnt).sum

theorem totalGasBurnt_eq_iff (mode : Overflow) :
    r.totalGasBurnt mode = some r.gasOfOutcomes ↔ r.gasOfOutcomes < 2 ^ 64 := by
  have hsum : r.gasOfOutcomes = r.details.transactionOutcome.outcome.gasBurnt +
      (r.details.receiptsOutcome.map fun t => t.outcome.gasBurnt).sum := by
    unfold gasOfOutcomes outcomes ExecutionDetails.outcomes
    rw [List.singleton_append, List.map_cons, List.sum_cons]
    rfl
  rw [hsum]
  exact addSum_eq_iff mode (Nat.two_pow_pos 64) _ _

end ExecutionFinalResult

/-- The gas of an execution is accounted for: the total is the sum over all outcomes, no addition
overflows, and the conversion gives a success with that total or the error of the status. -/
structure GasAccounted (b64 : Base64) (mode : Overflow) (r : ExecutionFinalResult) : Prop where
  total : r.totalGasBurnt mode = some r.gasOfOutcomes
  noOverflow : r.totalGasBurnt .stops ≠ none
  success : ∀ value, r.status = .successValue value →
    r.intoResult b64 mode = some (.ok ⟨r.gasOfOutcomes, ⟨b64.encode value⟩, r.details⟩)
  failure : ∀ txError, r.status = .failure txError →
    r.intoResult b64 mode = some (.error (.txExecution txError))
  notStarted : r.status = .notStarted →
    r.intoResult b64 mode = some (.error (.txStatus "NotStarted"))
  started : r.status = .started →
    r.intoResult b64 mode = some (.error (.txStatus "Started"))

/-- The gas of an execution is accounted for exactly when the sum over its outcomes is a `u64`,
whether additions that overflow stop the program or wrap. -/
theorem gasAccounted_iff (b64 : Base64) (mode : Overflow) (view : FinalExecutionOutcomeView) :
    GasAccounted b64 mode (.fromView view) ↔
      view.transactionOutcome.outcome.gasBurnt +
        (view.receiptsOutcome.map fun receipt => receipt.outcome.gasBurnt).sum < 2 ^ 64 := by
  generalize hr : ExecutionFinalResult.fromView view = r
  have hgas : r.gasOfOutcomes = view.transactionOutcome.outcome.gasBurnt +
      (view.receiptsOutcome.map fun receipt => receipt.outcome.gasBurnt).sum := by
    rw [← hr]
    exact List.sum_cons
  rw [← hgas]
  constructor
  · intro h
    exact (r.totalGasBurnt_eq_iff mode).mp h.total
  · intro h
    have htotal := (r.totalGasBurnt_eq_iff mode).mpr h
    constructor
    · exact htotal
    · rw [(r.totalGasBurnt_eq_iff .stops).mpr h]
      simp
    · intro value hs
      rw [ExecutionFinalResult.intoResult, htotal, hs]
      rfl
    · intro txError hs
      rw [ExecutionFinalResult.intoResult, htotal, hs]
      rfl
    · intro hs
      rw [ExecutionFinalResult.intoResult, htotal, hs]
      rfl
    · intro hs
      rw [ExecutionFinalResult.intoResult, htotal, hs]
      rfl

/-- A failed execution whose transaction burnt the last `u64` and whose receipt burnt one more. -/
def gasOverTheTop : FinalExecutionOutcomeView where
  status := .failure (.invalidTxError (.other "Expired"))
  transaction := ⟨⟨"alice.near"⟩, ⟨[1]⟩, 1, ⟨"bob.near"⟩, ⟨[]⟩, ⟨[]⟩⟩
  transactionOutcome := ⟨⟨[1]⟩, ⟨[], 2 ^ 64 - 1, .successReceiptId ⟨[2]⟩⟩⟩
  receiptsOutcome := [⟨⟨[2]⟩, ⟨[], 1, .successValue []⟩⟩]

/-- The program stops, even for the error, or reports that no gas was burnt. -/
theorem gasOverTheTop_overflows :
    (ExecutionFinalResult.fromView gasOverTheTop).gasOfOutcomes = 2 ^ 64 ∧
    (ExecutionFinalResult.fromView gasOverTheTop).totalGasBurnt .stops = none ∧
    (ExecutionFinalResult.fromView gasOverTheTop).intoResult .plain .stops = none ∧
    (ExecutionFinalResult.fromView gasOverTheTop).totalGasBurnt .wraps = some 0 :=
  ⟨rfl, rfl, rfl, rfl⟩

end NearFetch
