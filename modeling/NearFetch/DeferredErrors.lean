import Mathlib.Data.List.Induction

/-! # Errors that are kept for later

A builder whose steps may fail keeps the error and gives it out when it is used.  Two ways of keeping
it are described here.

* **A list** (`push`): a value is appended to the values so far and is dropped when there is an
  error; an error takes the place of what was there.  So the list is that of all values, unless there
  was an error, and then it is the last error (`foldl_push_ok`, `foldl_push_error`).
* **A cell** (`Write`): some writes respect an error that is there, and some do not.  So the cell
  holds an error exactly when the last of the latter wrote one (`foldl_write_error_iff`): an error
  that was written earlier is lost. -/

namespace DeferredErrors

variable {ε α : Type}

/-! ### A list -/

/-- Appends a result to the values so far. -/
def push : Except ε (List α) → Except ε α → Except ε (List α)
  | _, .error e => .error e
  | .error e, .ok _ => .error e
  | .ok l, .ok a => .ok (l ++ [a])

/-- The errors among the results. -/
def errors (l : List (Except ε α)) : List ε :=
  l.filterMap fun
    | .error e => some e
    | .ok _ => none

/-- The values among the results. -/
def values (l : List (Except ε α)) : List α :=
  l.filterMap fun
    | .error _ => none
    | .ok a => some a

theorem eq_map_ok {l : List (Except ε α)} (h : errors l = []) : l = (values l).map .ok := by
  induction l with
  | nil => rfl
  | cons x l ih =>
      cases x with
      | error e => cases h
      | ok a => exact congrArg (Except.ok a :: ·) (ih h)

theorem foldl_push_ok {l : List (Except ε α)} (h : errors l = []) (init : List α) :
    l.foldl push (.ok init) = .ok (init ++ values l) := by
  induction l generalizing init with
  | nil => rw [values, List.filterMap_nil, List.append_nil]; rfl
  | cons x l ih =>
      cases x with
      | error e => cases h
      | ok a =>
          rw [List.foldl_cons, push, ih h, List.append_assoc]
          rfl

theorem foldl_push_error {l : List (Except ε α)} {e : ε} (h : (errors l).getLast? = some e)
    (acc : Except ε (List α)) : l.foldl push acc = .error e := by
  induction l using List.reverseRecOn with
  | nil => cases h
  | append_singleton l x ih =>
      rw [List.foldl_append, List.foldl_cons, List.foldl_nil]
      have happend : errors (l ++ [x]) = errors l ++ errors [x] := List.filterMap_append
      rw [happend] at h
      cases x with
      | error e' =>
          obtain rfl : e' = e := by simpa [errors] using h
          rfl
      | ok a =>
          rw [ih (by simpa [errors] using h)]
          rfl

/-! ### A cell -/

/-- A write to a cell that holds a result. -/
inductive Write (ε α : Type) where
  | unlessError (a : α)
  | always (result : Except ε α)

/-- The cell after a write. -/
def write : Except ε α → Write ε α → Except ε α
  | .error e, .unlessError _ => .error e
  | .ok _, .unlessError a => .ok a
  | _, .always result => result

/-- What a write puts into the cell, whatever is there. -/
def Write.overwrites : Write ε α → Option (Except ε α)
  | .unlessError _ => none
  | .always result => some result

/-- The cell holds an error exactly when the last write that overwrites an error wrote one, or
there was no such write and the cell held an error. -/
theorem foldl_write_error_iff (cell : Except ε α) (l : List (Write ε α)) :
    (∃ e, l.foldl write cell = .error e) ↔
      ∃ e, ((l.filterMap Write.overwrites).getLast?.getD cell) = .error e := by
  induction l using List.reverseRecOn with
  | nil => rfl
  | append_singleton l x ih =>
      rw [List.foldl_append, List.foldl_cons, List.foldl_nil, List.filterMap_append]
      cases x with
      | unlessError a =>
          have hlast : l.filterMap Write.overwrites ++ [Write.unlessError a].filterMap
              (Write.overwrites (ε := ε)) = l.filterMap Write.overwrites := List.append_nil _
          rw [hlast, ← ih]
          cases l.foldl write cell <;> simp [write]
      | always result =>
          have hlast : (l.filterMap Write.overwrites ++ [Write.always result].filterMap
              Write.overwrites).getLast? = some result := by
            simp [Write.overwrites]
          rw [hlast, Option.getD_some]
          cases l.foldl write cell <;> rfl

end DeferredErrors
