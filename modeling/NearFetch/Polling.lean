import NearFetch.RetryLoop

/-! # Waiting for the completion of a transaction

`status` takes a reply to its query for pending, for final or for an error (`StatusReply.poll`), in
two places of the source: `status_tx_async` looks at the level of a response, and `status` at the
kind of an error.  `wait` ends at the first reply that is not pending (`wait_ready`, `wait_path`),
also when that reply holds an outcome that has not completed (`wait_completed_iff`). -/

namespace NearFetch

open Effects

/-- What the RPC replies to a status query. -/
abbrev StatusReply := Except (JsonRpcError RpcTransactionError) RpcTransactionResponse

namespace StatusReply

/-- The reply says that the transaction is not known yet, not answered yet or at a level below
execution. -/
def pending : StatusReply → Bool
  | .ok response =>
      decide (response.finalExecutionStatus = .none ∨ response.finalExecutionStatus = .included)
  | .error (.serverError (.handlerError (.unknownTransaction _))) => true
  | .error (.serverError (.handlerError .timeoutError)) => true
  | .error _ => false

/-- The reply reports execution and holds an outcome that has not completed. -/
def premature (reply : StatusReply) : Bool :=
  match reply with
  | .ok ⟨some outcome, _⟩ => !reply.pending && !outcome.intoOutcome.status.completed
  | _ => false

/-- What `status` makes of a reply. -/
def poll (reply : StatusReply) : Result (Poll ExecutionFinalResult) :=
  if reply.pending = true then .ok .pending else
    match reply with
    | .error err => .error (.rpcTransactionError err)
    | .ok ⟨none, _⟩ => .error (.rpcReturnedInvalidData "Missing final execution outcome")
    | .ok ⟨some outcome, _⟩ => .ok (.ready (.fromView outcome.intoOutcome))

theorem poll_pending {reply : StatusReply} : reply.poll = .ok .pending ↔ reply.pending = true := by
  unfold poll
  constructor
  · intro h
    by_contra hp
    rw [if_neg hp] at h
    split at h <;> cases h
  · intro hp
    rw [if_pos hp]

theorem poll_ready {reply : StatusReply} {r : ExecutionFinalResult}
    (h : reply.poll = .ok (.ready r)) : r.status.completed = !reply.premature := by
  unfold poll at h
  split at h
  · cases h
  · rename_i hp
    split at h
    · cases h
    · cases h
    · rename_i outcome level
      cases h
      have hp' : StatusReply.pending (.ok ⟨some outcome, level⟩) = false := by simpa using hp
      simp [premature, hp']

theorem poll_premature {reply : StatusReply} (h : reply.premature = true) :
    ∃ r, reply.poll = .ok (.ready r) := by
  unfold premature at h
  split at h
  · rename_i outcome level
    rw [Bool.and_eq_true, Bool.not_eq_true', Bool.not_eq_true'] at h
    unfold poll
    rw [if_neg (by simp [h.1])]
    exact ⟨_, rfl⟩
  · cases h

end StatusReply

/-- The reply to a status query. -/
def statusReply : Act Op Op.Reply → Option StatusReply
  | ⟨.rpc (.tx _ _ _), reply⟩ => some reply
  | _ => none

/-- The replies to the status queries of a path, oldest first. -/
def statusReplies (l : List (Act Op Op.Reply)) : List StatusReply := l.filterMap statusReply

/-- The status queries of the path were answered with the first replies of `ρ`. -/
def Answered (ρ : ℕ → StatusReply) (l : List (Act Op Op.Reply)) : Prop :=
  ∀ i reply, (statusReplies l)[i]? = some reply → reply = ρ i

section waiting

variable (h : AsyncTransactionStatus)

theorem status_eq :
    h.status = (do
      let reply ← effect (.rpc (.tx h.senderId h.hash .included))
      return StatusReply.poll reply) := by
  refine congrArg (Prog.op _) (funext fun reply => ?_)
  cases reply with
  | ok response =>
      obtain ⟨outcome, level⟩ := response
      cases level <;> cases outcome <;> rfl
  | error err =>
      cases err with
      | transportError info => rfl
      | serverError err =>
          cases err with
          | handlerError err => cases err <;> rfl
          | _ => rfl

theorem wait_succ (interval polls : ℕ) :
    h.wait interval (polls + 1) = (do
      let reply ← effect (.rpc (.tx h.senderId h.hash .included))
      match StatusReply.poll reply with
      | .error err => return some (.error err)
      | .ok (.ready val) => return some (.ok val)
      | .ok .pending =>
          effect (.sleep interval)
          h.wait interval polls) := by
  rw [AsyncTransactionStatus.wait, status_eq]
  rfl

theorem wait_ready {interval polls : ℕ} {l : List (Act Op Op.Reply)} {r : ExecutionFinalResult}
    {ρ : ℕ → StatusReply} (hret : Returns (h.wait interval polls) l (some (.ok r)))
    (hρ : Answered ρ l) :
    ∃ i, (∀ j < i, (ρ j).poll = .ok .pending) ∧ (ρ i).poll = .ok (.ready r) := by
  induction polls generalizing l ρ with
  | zero =>
      obtain ⟨-, hres⟩ := returns_pure.mp hret
      cases hres
  | succ polls ih =>
      rw [wait_succ] at hret
      obtain ⟨reply, l', rfl, hrest⟩ := returns_effect.mp hret
      have hfirst : reply = ρ 0 := hρ 0 reply rfl
      cases hpoll : StatusReply.poll reply with
      | error err =>
          rw [hpoll] at hrest
          obtain ⟨-, hres⟩ := returns_pure.mp hrest
          cases hres
      | ok poll =>
          rw [hpoll] at hrest
          cases poll with
          | ready val =>
              obtain ⟨-, hres⟩ := returns_pure.mp hrest
              cases hres
              exact ⟨0, fun j hj => absurd hj (Nat.not_lt_zero j), hfirst ▸ hpoll⟩
          | pending =>
              obtain ⟨_, l'', rfl, hwait⟩ := returns_effect.mp hrest
              obtain ⟨i, hpending, hready⟩ := ih hwait (ρ := fun n => ρ (n + 1))
                fun i reply' hi => hρ (i + 1) reply' hi
              refine ⟨i + 1, fun j hj => ?_, hready⟩
              cases j with
              | zero => exact hfirst ▸ hpoll
              | succ j => exact hpending j (by omega)

/-- Any replies up to the first one that is not pending are those of some path. -/
theorem wait_path (interval : ℕ) {r : ExecutionFinalResult} {i : ℕ} {ρ : ℕ → StatusReply}
    (hpending : ∀ j < i, (ρ j).poll = .ok .pending) (hready : (ρ i).poll = .ok (.ready r)) :
    ∃ l, Returns (h.wait interval (i + 1)) l (some (.ok r)) ∧ Answered ρ l := by
  induction i generalizing ρ with
  | zero =>
      refine ⟨[⟨.rpc (.tx h.senderId h.hash .included), ρ 0⟩], ?_, ?_⟩
      · rw [wait_succ]
        refine returns_effect.mpr ⟨ρ 0, [], rfl, ?_⟩
        rw [hready]
        exact .refl _
      · intro j reply hj
        cases j with
        | zero => exact (Option.some.inj hj).symm
        | succ j => cases hj
  | succ i ih =>
      obtain ⟨l, hl, hρ⟩ := ih (ρ := fun n => ρ (n + 1)) (fun j hj => hpending (j + 1) (by omega))
        hready
      refine ⟨⟨.rpc (.tx h.senderId h.hash .included), ρ 0⟩ :: ⟨.sleep interval, ()⟩ :: l, ?_, ?_⟩
      · rw [wait_succ]
        refine returns_effect.mpr ⟨ρ 0, _, rfl, ?_⟩
        rw [hpending 0 (by omega)]
        exact returns_effect.mpr ⟨(), l, rfl, hl⟩
      · intro j reply hj
        cases j with
        | zero => exact (Option.some.inj hj).symm
        | succ j => exact hρ j reply hj

/-- Given the replies to the status queries, a result of `wait` or of awaiting the handle has
completed, whatever the number of polls, exactly when the first reply that is not pending is not a
premature one. -/
theorem wait_completed_iff (interval : ℕ) (ρ : ℕ → StatusReply) :
    (∀ polls l r, (Returns (h.wait interval polls) l (some (.ok r)) ∨
        Returns (h.waitDefault polls) l (some (.ok r))) →
      Answered ρ l → r.status.completed = true) ↔
    ∀ i, (∀ j < i, (ρ j).pending = true) → (ρ i).premature = false := by
  constructor
  · intro hall i hpending
    by_contra hi
    have hpremature : (ρ i).premature = true := by simpa using hi
    obtain ⟨r, hr⟩ := StatusReply.poll_premature hpremature
    obtain ⟨l, hl, hρ⟩ := wait_path h interval
      (fun j hj => StatusReply.poll_pending.mpr (hpending j hj)) hr
    have hcompleted := hall _ l r (.inl hl) hρ
    rw [StatusReply.poll_ready hr, hpremature] at hcompleted
    cases hcompleted
  · intro hfirst polls l r hret hρ
    have hready : ∃ i, (∀ j < i, (ρ j).poll = .ok .pending) ∧ (ρ i).poll = .ok (.ready r) := by
      rcases hret with hret | hret
      · exact wait_ready h hret hρ
      · exact wait_ready h hret hρ
    obtain ⟨i, hpending, hi⟩ := hready
    rw [StatusReply.poll_ready hi,
      hfirst i fun j hj => StatusReply.poll_pending.mp (hpending j hj)]
    rfl

end waiting

/-- A response in a final block, some of whose receipts have not run. -/
def startedResponse : RpcTransactionResponse where
  finalExecutionOutcome := some (.finalExecutionOutcome { paid with status := .started })
  finalExecutionStatus := .includedFinal

/-- The first reply reports `IncludedFinal` and an outcome that has only started, and `wait` and
the awaited handle return it. -/
theorem wait_started :
    ∃ h l r, Returns (AsyncTransactionStatus.wait h 300 1) l (some (.ok r)) ∧
      Returns (AsyncTransactionStatus.waitDefault h 1) l (some (.ok r)) ∧
      statusReplies l = [.ok startedResponse] ∧ r.status = .started := by
  let h : AsyncTransactionStatus := ⟨⟨"alice.near"⟩, ⟨[7]⟩⟩
  have hret : Returns (h.wait 300 1) [⟨.rpc (.tx h.senderId h.hash .included), .ok startedResponse⟩]
      (some (.ok (.fromView { paid with status := .started }))) := .step (.refl _)
  exact ⟨h, _, _, hret, hret, rfl, rfl⟩

end NearFetch
