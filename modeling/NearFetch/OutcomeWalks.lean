import NearFetch.Outcome
import NearFetch.CacheInvalidation

/-! # The walks over an outcome

The outcomes of an execution are walked in three places: by `ExecutionDetails`, by
`ExecutionResult` and, for their errors only, by `fetch_tx_errs`.  The first two are the same walks
(`details_walks`), and all of them see the transaction first and then the receipts in order
(`walks_agree`). -/

namespace NearFetch

open MachineSum

theorem ExecutionStatusView.ite_isFailure (status : ExecutionStatusView) :
    (if status.isFailure = true then status.failure? else none) = status.failure? := by
  cases status <;> rfl

namespace ExecutionDetails

variable (d : ExecutionDetails)

theorem outcomes_eq : d.outcomes = d.transactionOutcome :: d.receiptsOutcome := rfl

theorem failures_eq_filter :
    d.failures = d.outcomes.filter fun outcome => outcome.outcome.status.isFailure := by
  rw [outcomes_eq, List.filter_cons]
  unfold failures
  split
  · exact List.singleton_append
  · exact List.nil_append _

theorem filterMap_failures :
    d.failures.filterMap (fun outcome => outcome.outcome.status.failure?) =
      d.transactionOutcome.outcome.status.failure?.toList ++
        d.receiptsOutcome.filterMap fun receipt => receipt.outcome.status.failure? := by
  rw [failures_eq_filter, List.filterMap_filter, outcomes_eq]
  simp only [ExecutionStatusView.ite_isFailure]
  rw [List.filterMap_cons]
  cases d.transactionOutcome.outcome.status.failure? <;> rfl

end ExecutionDetails

/-- The walks give the same on a success as on the details of the execution. -/
structure SameWalks (d : ExecutionDetails) (s : ExecutionSuccess) : Prop where
  outcomes : s.outcomes = d.outcomes
  receiptOutcomes : s.receiptOutcomes = d.receiptOutcomes
  failures : s.failures = d.failures
  receiptFailures : s.receiptFailures = d.receiptFailures
  logs : s.logs = d.logs

theorem details_walks (s : ExecutionSuccess) : SameWalks s.details s := ⟨rfl, rfl, rfl, rfl, rfl⟩

namespace ExecutionFinalResult

theorem intoResult_details {r : ExecutionFinalResult} {b64 : Base64} {mode : Overflow}
    {s : ExecutionSuccess} (h : r.intoResult b64 mode = some (.ok s)) : s.details = r.details := by
  unfold intoResult at h
  obtain ⟨total, -, h⟩ := Option.bind_eq_some_iff.mp h
  cases hs : r.status with
  | successValue value =>
      rw [hs] at h
      cases h
      rfl
  | failure txError => rw [hs] at h; cases h
  | notStarted => rw [hs] at h; cases h
  | started => rw [hs] at h; cases h

end ExecutionFinalResult

/-- The walks over the result of an outcome, over the success that it is converted to, and over the
outcome in a response see the same outcomes, failures, errors and logs in the same order. -/
theorem walks_agree (view : FinalExecutionOutcomeView) :
    (ExecutionFinalResult.fromView view).outcomes =
      view.transactionOutcome :: view.receiptsOutcome ∧
    (ExecutionFinalResult.fromView view).receiptOutcomes = view.receiptsOutcome ∧
    (ExecutionFinalResult.fromView view).failures =
      ((ExecutionFinalResult.fromView view).outcomes.filter fun outcome =>
        outcome.outcome.status.isFailure) ∧
    (ExecutionFinalResult.fromView view).receiptFailures =
      (view.receiptsOutcome.filter fun receipt => receipt.outcome.status.isFailure) ∧
    (ExecutionFinalResult.fromView view).logs =
      ((ExecutionFinalResult.fromView view).outcomes.map fun outcome =>
        outcome.outcome.logs).flatten ∧
    (∀ b64 mode s, (ExecutionFinalResult.fromView view).intoResult b64 mode = some (.ok s) →
      SameWalks (ExecutionFinalResult.fromView view).details s) ∧
    ∀ outcome level, outcome = .finalExecutionOutcome view ∨
        (∃ receipts, outcome = .finalExecutionOutcomeWithReceipt ⟨view, receipts⟩) →
      fetchTxErrs ⟨some outcome, level⟩ = view.status.failure?.toList ++
        (ExecutionFinalResult.fromView view).failures.filterMap fun outcome =>
          outcome.outcome.status.failure? := by
  refine ⟨rfl, rfl, ExecutionDetails.failures_eq_filter _, rfl, List.flatMap_def, ?_, ?_⟩
  · intro b64 mode s hs
    rw [← ExecutionFinalResult.intoResult_details hs]
    exact details_walks s
  · intro outcome level houtcome
    have hview : outcome.intoOutcome = view := by
      rcases houtcome with rfl | ⟨receipts, rfl⟩ <;> rfl
    have hfailures := (ExecutionFinalResult.fromView view).details.filterMap_failures
    rw [fetchTxErrs_some, hview, List.append_assoc]
    exact congrArg _ hfailures.symm

end NearFetch
