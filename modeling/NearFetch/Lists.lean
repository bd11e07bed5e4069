import Mathlib.Algebra.BigOperators.Group.List.Basic
import Mathlib.Algebra.GroupWithZero.Nat

/-! # Lists

Facts about entries of a list and where they stand, and about the entries that a function selects. -/

namespace List

variable {α β : Type}

/-- Two entries of one list: one stands before the other, or they are the same. -/
theorem split_trichotomy {l₁ l₂ m₁ m₂ : List α} {x y : α}
    (h : l₁ ++ x :: l₂ = m₁ ++ y :: m₂) :
    (∃ k, m₁ = l₁ ++ x :: k ∧ l₂ = k ++ y :: m₂) ∨ (l₁ = m₁ ∧ x = y ∧ l₂ = m₂) ∨
      ∃ k, l₁ = m₁ ++ y :: k ∧ m₂ = k ++ x :: l₂ := by
  rcases List.append_eq_append_iff.mp h with ⟨k, hm, hl⟩ | ⟨k, hl, hm⟩
  · cases k with
    | nil =>
        obtain ⟨rfl, rfl⟩ := List.cons.inj hl
        exact .inr (.inl ⟨by simpa using hm.symm, rfl, rfl⟩)
    | cons z k =>
        obtain ⟨rfl, rfl⟩ := List.cons.inj hl
        exact .inl ⟨k, hm, rfl⟩
  · cases k with
    | nil =>
        obtain ⟨rfl, rfl⟩ := List.cons.inj hm
        exact .inr (.inl ⟨by simpa using hl, rfl, rfl⟩)
    | cons z k =>
        obtain ⟨rfl, rfl⟩ := List.cons.inj hm
        exact .inr (.inr ⟨k, hl, rfl⟩)

/-- What holds of any two entries, the earlier one first, holds of the list. -/
theorem pairwise_of_splits {R : α → α → Prop} {l : List α}
    (h : ∀ l₁ a l₂ b l₃, l = l₁ ++ a :: (l₂ ++ b :: l₃) → R a b) : l.Pairwise R := by
  rw [List.pairwise_iff_forall_sublist]
  intro a b hsub
  obtain ⟨r₁, r₂, rfl, ha, hb⟩ := List.cons_sublist_iff.mp hsub
  obtain ⟨l₁, m₁, rfl⟩ := List.append_of_mem ha
  obtain ⟨m₂, l₃, rfl⟩ := List.append_of_mem (List.singleton_sublist.mp hb)
  exact h l₁ a (m₁ ++ m₂) b l₃ (by simp)

theorem filterMap_cons_toList (f : α → Option β) (a : α) (l : List α) :
    (a :: l).filterMap f = (f a).toList ++ l.filterMap f := by
  rw [List.filterMap_cons]
  cases f a <;> rfl

theorem count_filterMap_eq_sum {γ : Type} [BEq γ] (f : α → Option β) (g : β → γ) (x : γ) (l : List α) :
    ((l.filterMap f).map g).count x = (l.map fun a => ((f a).toList.map g).count x).sum := by
  induction l with
  | nil => rfl
  | cons a l ih =>
      rw [filterMap_cons_toList, List.map_append, List.count_append, ih, List.map_cons, List.sum_cons]

end List
