import Mathlib.Data.List.Range
import Mathlib.Data.List.Nodup
import Mathlib.Data.List.Perm.Subperm
import Mathlib.Data.Nat.ModEq

/-! # Round robin by a counter that wraps

A counter modulo `M` selects one of `n` places by its remainder modulo `n`.  `window M n c` are the
places that `n` consecutive values of it select, beginning with the value `c`.  As long as the
counter does not wrap, every place has its turn.  Where it wraps from `M - 1` to `0`, the places go on
in order only if `n` divides `M`; otherwise some place comes up again before its turn
(`exists_repeat`), so another one is left out.  `window_once_iff` says exactly when every place
is selected once.

A `stretch` is any number of consecutive values.  Between two wraps all places have the same number of
turns in it, up to one; so every wrap can put one place ahead of another by one turn more, and no more
than that (`count_le_of_stretch`). -/

namespace RoundRobin

/-- The places that `n` consecutive values of a counter modulo `M` select, from the value `c` on. -/
def window (M n c : ℕ) : List ℕ := (List.range n).map fun i => (c + i) % M % n

variable {M n c : ℕ}

theorem length_window : (window M n c).length = n := by
  simp [window]

theorem window_lt (hn : 0 < n) : ∀ p ∈ window M n c, p < n := by
  intro p hp
  obtain ⟨i, -, rfl⟩ := List.mem_map.mp hp
  exact Nat.mod_lt _ hn

theorem once_iff_nodup (hn : 0 < n) :
    (∀ p < n, (window M n c).count p = 1) ↔ (window M n c).Nodup := by
  have hsub : window M n c ⊆ List.range n := fun p hp => List.mem_range.mpr (window_lt hn p hp)
  constructor
  · intro h
    have hrange : List.range n ⊆ window M n c := by
      intro p hp
      apply List.count_pos_iff.mp
      rw [h p (List.mem_range.mp hp)]
      exact Nat.one_pos
    have hsubperm := List.subperm_of_subset List.nodup_range hrange
    have hperm := hsubperm.perm_of_length_le (by rw [length_window, List.length_range])
    exact hperm.nodup_iff.mp List.nodup_range
  · intro h p hp
    have hsubperm := List.subperm_of_subset h hsub
    have hperm := hsubperm.perm_of_length_le (by rw [length_window, List.length_range])
    rw [hperm.count_eq]
    exact List.count_eq_one_of_mem List.nodup_range (List.mem_range.mpr hp)

theorem nodup_window_iff :
    (window M n c).Nodup ↔ ∀ i < n, ∀ j < n, (c + i) % M % n = (c + j) % M % n → i = j := by
  rw [window, List.nodup_map_iff_inj_on List.nodup_range]
  simp only [List.mem_range]

theorem eq_of_add_mod_eq {i j : ℕ} (hi : i < n) (hj : j < n) (h : (c + i) % n = (c + j) % n) :
    i = j := by
  have hmod : i ≡ j [MOD n] := Nat.ModEq.add_left_cancel' c h
  exact hmod.eq_of_lt_of_lt hi hj

/-- Where the counter wraps within the window and `n` does not divide `M`, the value just after
the wrap, or the one that is as far from it as `M` is from a multiple of `n`, repeats a place. -/
theorem exists_repeat (hc : c < M) (hwrap : M < c + n) (hdvd : ¬ n ∣ M) :
    ∃ i < n, ∃ j < n, i ≠ j ∧ (c + i) % M % n = (c + j) % M % n := by
  have hn : 0 < n := by omega
  have hrem : M % n < n := Nat.mod_lt M hn
  have hpos : 0 < M % n := Nat.emod_pos_of_not_dvd hdvd
  have hle : M % n ≤ M := Nat.mod_le M n
  -- the later of the two values has wrapped and the earlier has not; they are `M % n` steps apart
  obtain ⟨i, hi, hbefore, hafter⟩ : ∃ i, i + M % n < n ∧ c + i < M ∧ M ≤ c + (i + M % n) := by
    refine ⟨M - c - M % n, ?_, ?_, ?_⟩ <;> omega
  refine ⟨i, by omega, i + M % n, hi, by omega, ?_⟩
  have hlater : (c + (i + M % n)) % M = c + (i + M % n) - M := by
    rw [Nat.mod_eq_sub_mod hafter]
    exact Nat.mod_eq_of_lt (by omega)
  have hsum : c + i = (c + (i + M % n) - M) + n * (M / n) := by
    have hdiv := Nat.mod_add_div M n
    omega
  rw [hlater, Nat.mod_eq_of_lt hbefore, hsum, Nat.add_mul_mod_self_left]

/-- A window selects every place once exactly when it does not cross the wrap or `n` divides `M`. -/
theorem window_once_iff (hc : c < M) (hn : 0 < n) :
    (∀ p < n, (window M n c).count p = 1) ↔ c + n ≤ M ∨ n ∣ M := by
  rw [once_iff_nodup hn, nodup_window_iff]
  constructor
  · intro hinj
    by_contra hneither
    obtain ⟨hwrap, hdvd⟩ := not_or.mp hneither
    obtain ⟨i, hi, j, hj, hne, heq⟩ := exists_repeat hc (by omega) hdvd
    exact hne (hinj i hi j hj heq)
  · rintro (hle | hdvd) i hi j hj heq
    · rw [Nat.mod_eq_of_lt (show c + i < M by omega),
        Nat.mod_eq_of_lt (show c + j < M by omega)] at heq
      exact eq_of_add_mod_eq hi hj heq
    · rw [Nat.mod_mod_of_dvd _ hdvd, Nat.mod_mod_of_dvd _ hdvd] at heq
      exact eq_of_add_mod_eq hi hj heq

/-! ### Stretches of any length -/

/-- The places that `k` consecutive values of a counter modulo `M` select, from the value `c` on. -/
def stretch (M n c k : ℕ) : List ℕ := (List.range k).map fun i => (c + i) % M % n

variable {k l p q : ℕ}

theorem stretch_add : stretch M n c (k + l) = stretch M n c k ++ stretch M n (c + k) l := by
  unfold stretch
  rw [List.range_add, List.map_append, List.map_map]
  simp only [Function.comp_def, Nat.add_assoc]

/-- The counter goes on from zero when it has wrapped. -/
theorem stretch_wrapped : stretch M n M l = stretch M n 0 l := by
  unfold stretch
  simp only [Nat.add_mod_left, Nat.zero_add]

theorem stretch_eq (h : c + k ≤ M ∨ n ∣ M) :
    stretch M n c k = (List.range k).map fun i => (c + i) % n := by
  apply List.map_congr_left
  intro i hi
  rcases h with hle | hdvd
  · have hlt : c + i < M := by
      have := List.mem_range.mp hi
      omega
    rw [Nat.mod_eq_of_lt hlt]
  · exact Nat.mod_mod_of_dvd _ hdvd

theorem count_range_self (hp : p < n) :
    ((List.range n).map fun i => (c + i) % n).count p = 1 := by
  have hn : 0 < n := by omega
  have honce := (window_once_iff (M := c + n) (n := n) (c := c) (by omega) hn).mpr (.inl le_rfl) p hp
  rwa [← stretch_eq (M := c + n) (.inl le_rfl)]

/-- Consecutive numbers give no place two turns more than another. -/
theorem count_le_of_range (hp : p < n) (hq : q < n) :
    ((List.range k).map fun i => (c + i) % n).count p ≤
      ((List.range k).map fun i => (c + i) % n).count q + 1 := by
  induction k using Nat.strong_induction_on generalizing c with
  | _ k ih =>
      by_cases hk : k < n
      · have hnodup : ((List.range k).map fun i => (c + i) % n).Nodup := by
          rw [List.nodup_map_iff_inj_on List.nodup_range]
          intro i hi j hj heq
          rw [List.mem_range] at hi hj
          exact eq_of_add_mod_eq (by omega) (by omega) heq
        have hle := List.nodup_iff_count_le_one.mp hnodup p
        omega
      · -- a whole round in front gives each of them one turn
        obtain ⟨r, rfl⟩ := Nat.exists_eq_add_of_le (Nat.not_lt.mp hk)
        have hrest := ih r (by omega) (c := c + n)
        simp only [List.range_add, List.map_append, List.map_map, List.count_append,
          Function.comp_def, count_range_self hp, count_range_self hq, ← Nat.add_assoc]
        omega

/-- No place has more turns than another by more than one and one for each wrap. -/
theorem count_le_of_stretch (hc : c < M) (hp : p < n) (hq : q < n) :
    (stretch M n c k).count p ≤ (stretch M n c k).count q + 1 + (c + k - 1) / M := by
  induction k using Nat.strong_induction_on generalizing c with
  | _ k ih =>
      by_cases hk : c + k ≤ M
      · rw [stretch_eq (.inl hk)]
        exact (count_le_of_range hp hq).trans (Nat.le_add_right _ _)
      · obtain ⟨r, rfl, hr⟩ : ∃ r, k = M - c + r ∧ 0 < r := ⟨k - (M - c), by omega, by omega⟩
        have hbefore : (stretch M n c (M - c)).count p ≤ (stretch M n c (M - c)).count q + 1 := by
          rw [stretch_eq (.inl (show c + (M - c) ≤ M by omega))]
          exact count_le_of_range hp hq
        have hafter := ih r (by omega) (show 0 < M by omega)
        have hwraps : (c + (M - c + r) - 1) / M = (0 + r - 1) / M + 1 := by
          rw [show c + (M - c + r) - 1 = 0 + r - 1 + M by omega]
          exact Nat.add_div_right _ (by omega)
        rw [stretch_add, show c + (M - c) = M by omega, stretch_wrapped, List.count_append,
          List.count_append]
        omega

/-- The wraps put no place ahead if the places divide the counter's range. -/
theorem count_le_of_dvd (hdvd : n ∣ M) (hp : p < n) (hq : q < n) :
    (stretch M n c k).count p ≤ (stretch M n c k).count q + 1 := by
  rw [stretch_eq (.inr hdvd)]
  exact count_le_of_range hp hq

end RoundRobin
