import Mathlib.Algebra.BigOperators.Group.List.Basic
import Mathlib.Algebra.GroupWithZero.Nat

/-! # Sums of machine integers

Addition of integers below `M`, in the two ways in which a program may be built: an addition that
overflows either stops the program or wraps.  A whole sum of many additions is exact exactly when the
mathematical sum is below `M`, in either way and whatever the order (`addSum_eq_iff`): the
intermediate sums are never the reason on their own. -/

namespace MachineSum

/-- What an addition that overflows does. -/
inductive Overflow where
  | stops
  | wraps
deriving DecidableEq, Repr

/-- Addition of integers below `M`; `none` is a stopped program. -/
def add (mode : Overflow) (M a b : ℕ) : Option ℕ :=
  match mode with
  | .stops => if a + b < M then some (a + b) else none
  | .wraps => some ((a + b) % M)

/-- The additions of a list to an initial value, one after another. -/
def sumFrom (mode : Overflow) (M : ℕ) : ℕ → List ℕ → Option ℕ
  | acc, [] => some acc
  | acc, x :: l => (add mode M acc x).bind fun acc' => sumFrom mode M acc' l

/-- The sum of a list. -/
def sum (mode : Overflow) (M : ℕ) (l : List ℕ) : Option ℕ := sumFrom mode M 0 l

variable {M : ℕ}

theorem sumFrom_stops {acc : ℕ} (hacc : acc < M) (l : List ℕ) :
    sumFrom .stops M acc l = if acc + l.sum < M then some (acc + l.sum) else none := by
  induction l generalizing acc with
  | nil => simp [sumFrom, hacc]
  | cons x l ih =>
      rw [sumFrom, add, List.sum_cons]
      by_cases hx : acc + x < M
      · rw [if_pos hx, Option.bind_some, ih hx, Nat.add_assoc]
      · have hsum : ¬ acc + (x + l.sum) < M := by omega
        rw [if_neg hx, if_neg hsum, Option.bind_none]

theorem sumFrom_wraps {acc : ℕ} (hacc : acc < M) (l : List ℕ) :
    sumFrom .wraps M acc l = some ((acc + l.sum) % M) := by
  induction l generalizing acc with
  | nil => simp [sumFrom, Nat.mod_eq_of_lt hacc]
  | cons x l ih =>
      have hpos : 0 < M := by omega
      rw [sumFrom, add, Option.bind_some, ih (Nat.mod_lt _ hpos), Nat.mod_add_mod, List.sum_cons,
        Nat.add_assoc]

/-- One more addition after a sum is exact exactly when the total is below `M`. -/
theorem addSum_eq_iff (mode : Overflow) (hM : 0 < M) (a : ℕ) (l : List ℕ) :
    ((sum mode M l).bind fun s => add mode M a s) = some (a + l.sum) ↔ a + l.sum < M := by
  cases mode with
  | stops =>
      rw [sum, sumFrom_stops hM, Nat.zero_add]
      by_cases hl : l.sum < M
      · rw [if_pos hl, Option.bind_some, add]
        split <;> simp_all
      · rw [if_neg hl, Option.bind_none]
        constructor
        · intro h
          cases h
        · intro h
          omega
  | wraps =>
      rw [sum, sumFrom_wraps hM, Nat.zero_add, Option.bind_some, add, Nat.add_mod_mod,
        Option.some.injEq]
      constructor
      · intro h
        rw [← h]
        exact Nat.mod_lt _ hM
      · exact Nat.mod_eq_of_lt

end MachineSum
