import Mathlib.Algebra.BigOperators.Group.Finset.Piecewise
import Mathlib.Algebra.GroupWithZero.Nat
import Mathlib.Algebra.Order.BigOperators.Group.Finset
import NearFetch.Interleaving

/-! # What programs spend

`cost e` is the price of the effect `e`.  `CostAtMost cost n p` says that the program `p` spends at most `n`,
whatever the replies are and wherever it is stopped; the bound of a sequence is the sum of the bounds of its
parts (`CostAtMost.bind`).  In a run, each thread has spent at most what its program may
(`Run.spent_le`), dropped or not, and all threads together at most the sum (`Run.total_le`). -/

namespace Effects

variable {ι S A E : Type} {R : E → Type} {α β : Type} {cost : E → ℕ}

/-- The program spends at most so much. -/
def CostAtMost (cost : E → ℕ) : ℕ → Prog E R α → Prop
  | _, .pure _ => True
  | n, .op e k => cost e ≤ n ∧ ∀ r, CostAtMost cost (n - cost e) (k r)
  | _, .panic _ => True

theorem costAtMost_pure (n : ℕ) (a : α) : CostAtMost cost n (pure a : Prog E R α) := trivial

theorem CostAtMost.mono {n m : ℕ} {p : Prog E R α} (h : CostAtMost cost n p) (hnm : n ≤ m) :
    CostAtMost cost m p := by
  induction p generalizing n m with
  | pure a => trivial
  | op e k ih => exact ⟨h.1.trans hnm, fun r => ih r (h.2 r) (Nat.sub_le_sub_right hnm _)⟩
  | panic msg => trivial

theorem CostAtMost.bind {n m : ℕ} {p : Prog E R α} {f : α → Prog E R β}
    (hp : CostAtMost cost n p) (hf : ∀ a, CostAtMost cost m (f a)) :
    CostAtMost cost (n + m) (p >>= f) := by
  induction p generalizing n with
  | pure a => exact (hf a).mono (Nat.le_add_left m n)
  | op e k ih =>
      have hle : cost e ≤ n := hp.1
      have hrest : n + m - cost e = n - cost e + m := by omega
      refine ⟨by omega, fun r => ?_⟩
      rw [hrest]
      exact ih r (hp.2 r)
  | panic msg => trivial

theorem CostAtMost.bind_free {n : ℕ} {p : Prog E R α} {f : α → Prog E R β}
    (hp : CostAtMost cost n p) (hf : ∀ a, CostAtMost cost 0 (f a)) :
    CostAtMost cost n (p >>= f) := hp.bind hf

theorem CostAtMost.free_bind {n : ℕ} {p : Prog E R α} {f : α → Prog E R β}
    (hp : CostAtMost cost 0 p) (hf : ∀ a, CostAtMost cost n (f a)) :
    CostAtMost cost n (p >>= f) := by
  have h := hp.bind hf
  rwa [Nat.zero_add] at h

theorem costAtMost_perform (e : E) : CostAtMost cost (cost e) (Prog.perform (R := R) e) :=
  ⟨le_rfl, fun _ => trivial⟩

theorem Only.costAtMost {B : E → Prop} (hB : ∀ e, B e → cost e = 0) {p : Prog E R α} (hp : Only B p) :
    CostAtMost cost 0 p := by
  induction p with
  | pure a => trivial
  | op e k ih =>
      have hzero : cost e = 0 := hB e hp.1
      refine ⟨hzero.le, fun r => ?_⟩
      rw [hzero]
      exact ih r (hp.2 r)
  | panic msg => trivial

/-- What the effects of a path cost. -/
def spent (cost : E → ℕ) (l : List (Act E R)) : ℕ := (l.map fun a => cost a.effect).sum

/-- The bound holds wherever the path stops. -/
theorem CostAtMost.leads {n : ℕ} {p q : Prog E R α} {l : List (Act E R)}
    (hp : CostAtMost cost n p) (h : Leads p l q) : spent cost l ≤ n := by
  induction h generalizing n with
  | refl p => exact Nat.zero_le n
  | @step e k r l q _ ih =>
      have hle : cost e ≤ n := hp.1
      have hrest : spent cost l ≤ n - cost e := ih (hp.2 r)
      have hsum : spent cost (⟨e, r⟩ :: l) = cost e + spent cost l := rfl
      omega

section runs

variable [DecidableEq ι] {M : Machine ι S A E R} {s₀ : S} {prog : ι → Prog E R α}
  {tr : List (Event ι E R)} {c : Config ι S E R α} {bound : ι → ℕ}

theorem Run.spent_le (hprog : ∀ t, CostAtMost cost (bound t) (prog t))
    (h : Run M (.start s₀ prog) tr c) (t : ι) : spent cost (acts t tr) ≤ bound t := by
  obtain ⟨q, hq, -⟩ := h.leads t
  exact (hprog t).leads hq

/-- What is added up over the effects of a trace is added up over its threads. -/
theorem sum_acts [Fintype ι] (g : Act E R → ℕ) (tr : List (Event ι E R)) :
    (tr.map fun ev => g ev.act).sum = ∑ t, ((acts t tr).map g).sum := by
  induction tr with
  | nil => simp
  | cons ev tr ih =>
      have hstep : ∀ t, ((acts t (ev :: tr)).map g).sum =
          (if t = ev.thread then g ev.act else 0) + ((acts t tr).map g).sum := by
        intro t
        by_cases ht : t = ev.thread
        · subst ht
          rw [if_pos rfl, acts_cons_self, List.map_cons, List.sum_cons]
        · rw [if_neg ht, acts_cons_ne (Ne.symm ht), Nat.zero_add]
      rw [List.map_cons, List.sum_cons, ih, Finset.sum_congr rfl fun t _ => hstep t,
        Finset.sum_add_distrib, Finset.sum_ite_eq' Finset.univ ev.thread, if_pos (Finset.mem_univ _)]

theorem Run.total_le [Fintype ι] (hprog : ∀ t, CostAtMost cost (bound t) (prog t))
    (h : Run M (.start s₀ prog) tr c) :
    (tr.map fun ev => cost ev.act.effect).sum ≤ ∑ t, bound t := by
  rw [sum_acts fun a => cost a.effect]
  exact Finset.sum_le_sum fun t _ => h.spent_le hprog t

end runs

end Effects
