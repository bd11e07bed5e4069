import Mathlib.Logic.Hydra
import Mathlib.Data.Fintype.Basic
import NearFetch.Interleaving

/-! # What every schedule comes to

`Inevitably M G c` says that whatever the schedule does from `c`, whichever threads are dropped and
however often the environment moves in between, a configuration in `G` is reached: there is no infinite
schedule that avoids it and no configuration before it in which all threads are stuck.

A program is a well-founded tree of effects, so a thread that moves has less left to do (`Below`), and
with finitely many threads their moves come to an end (`Moves.cutExpand`, over Mathlib's `CutExpand`).
What remains of a liveness property is then safety: `inevitably_of_progress` asks only that some thread
can proceed wherever `G` does not hold yet. -/

namespace Effects

open Relation

variable {ι S A E : Type} {R : E → Type} {α : Type}

/-! ### What a thread has left to do -/

/-- What is left of a thread after it has moved: the rest of its program, or nothing. -/
inductive Below : Option (Prog E R α) → Option (Prog E R α) → Prop
  | reply {e : E} {k : R e → Prog E R α} (r : R e) : Below (some (k r)) (some (.op e k))
  | dropped {p : Prog E R α} : Below none (some p)

theorem acc_none : Acc Below (none : Option (Prog E R α)) :=
  ⟨_, fun _ h => nomatch h⟩

theorem acc_some (p : Prog E R α) : Acc Below (some p) := by
  induction p with
  | pure a =>
      refine ⟨_, fun q h => ?_⟩
      cases h with
      | dropped => exact acc_none
  | op e k ih =>
      refine ⟨_, fun q h => ?_⟩
      cases h with
      | reply r => exact ih r
      | dropped => exact acc_none
  | panic msg =>
      refine ⟨_, fun q h => ?_⟩
      cases h with
      | dropped => exact acc_none

theorem below_wf : WellFounded (Below : Option (Prog E R α) → Option (Prog E R α) → Prop) := by
  refine ⟨fun p => ?_⟩
  cases p with
  | none => exact acc_none
  | some p => exact acc_some p

section moves

variable [DecidableEq ι] (M : Machine ι S A E R)

/-! ### The moves of the threads -/

/-- A thread goes on by itself: it performs its next effect, or unwinds from a panic. -/
inductive Proceeds (c : Config ι S E R α) : Config ι S E R α → Prop
  | act {t : ι} {e : E} {k : R e → Prog E R α} {ans : Option (R e)} {r : R e} {s : S} :
      c.thread t = some (.op e k) → M.perform t e ans c.shared = some (r, s) →
      Proceeds c (c.advance t (some (k r)) s)
  | unwind {t : ι} {msg : String} :
      c.thread t = some (.panic msg) → Proceeds c (c.advance t none (M.discard t c.shared))

/-- A thread goes on by itself or is dropped. -/
inductive Moves (c : Config ι S E R α) : Config ι S E R α → Prop
  | act {t : ι} {e : E} {k : R e → Prog E R α} {ans : Option (R e)} {r : R e} {s : S} :
      c.thread t = some (.op e k) → M.perform t e ans c.shared = some (r, s) →
      Moves c (c.advance t (some (k r)) s)
  | drop {t : ι} {p : Prog E R α} :
      c.thread t = some p → ¬ p.Done → Moves c (c.advance t none (M.discard t c.shared))

/-- The environment moves any number of times. -/
def Config.after (c : Config ι S E R α) (as : List A) : Config ι S E R α :=
  { c with shared := as.foldl (fun s a => M.ambient a s) c.shared }

/-- Every schedule from `c` comes to a configuration in `G`. -/
inductive Inevitably (G : Config ι S E R α → Prop) : Config ι S E R α → Prop
  | now {c : Config ι S E R α} : G c → Inevitably G c
  | later {c : Config ι S E R α} :
      (∀ as, G (c.after M as) ∨ ∃ c', Proceeds M (c.after M as) c') →
      (∀ as c', Moves M (c.after M as) c' → Inevitably G c') → Inevitably G c

variable {M} {c c' : Config ι S E R α}

theorem Proceeds.moves (h : Proceeds M c c') : Moves M c c' := by
  cases h with
  | act ht hp => exact .act ht hp
  | unwind ht => exact .drop ht id

/-- One thread has less left to do after a move, and the others have what they had. -/
theorem Moves.below (h : Moves M c c') :
    ∃ t q, c'.thread = Function.update c.thread t q ∧ Below q (c.thread t) := by
  cases h with
  | @act t e k ans r s ht hp => exact ⟨t, some (k r), rfl, ht ▸ .reply r⟩
  | @drop t p ht hp => exact ⟨t, none, rfl, ht ▸ .dropped⟩

variable {c₀ : Config ι S E R α} {tr : List (Event ι E R)}

theorem Run.moves (h : Run M c₀ tr c) (hm : Moves M c c') : ∃ tr', Run M c₀ tr' c' := by
  cases hm with
  | act ht hp => exact ⟨_, h.act ht hp⟩
  | drop ht hp => exact ⟨_, h.drop ht hp⟩

theorem Run.after (h : Run M c₀ tr c) (as : List A) : Run M c₀ tr (c.after M as) := by
  induction as generalizing c with
  | nil => exact h
  | cons a as ih => exact ih (h.ambient a)

/-- What is inevitable can be reached, without dropping a thread that has not panicked. -/
theorem Inevitably.exists_run {G : Config ι S E R α → Prop} (h : Inevitably M G c)
    (hrun : Run M c₀ tr c) : ∃ tr' c', Run M c₀ tr' c' ∧ G c' := by
  induction h generalizing tr with
  | now hG => exact ⟨tr, _, hrun, hG⟩
  | later hproceeds _ ih =>
      rcases hproceeds [] with hG | ⟨c', hc'⟩
      · exact ⟨tr, _, hrun, hG⟩
      · obtain ⟨tr', hrun'⟩ := hrun.moves hc'.moves
        exact ih [] c' hc'.moves hrun'

/-! ### Progress is enough -/

variable [Fintype ι]

/-- What the threads have left to do, together. -/
def Config.left (c : Config ι S E R α) : Multiset (Option (Prog E R α)) :=
  Finset.univ.val.map c.thread

theorem Moves.cutExpand (h : Moves M c c') : CutExpand Below c'.left c.left := by
  obtain ⟨t, q, hthread, hbelow⟩ := h.below
  have hcons : (Finset.univ : Finset ι).val = t ::ₘ (Finset.univ.erase t).val := by
    rw [Finset.erase_val, Multiset.cons_erase (Finset.mem_univ t)]
  have hothers : (Finset.univ.erase t).val.map c'.thread =
      (Finset.univ.erase t).val.map c.thread := by
    apply Multiset.map_congr rfl
    intro u hu
    rw [hthread, Function.update_of_ne (Finset.ne_of_mem_erase hu)]
  have hself : c'.thread t = q := by
    rw [hthread, Function.update_self]
  rw [Config.left, Config.left, hcons, Multiset.map_cons, Multiset.map_cons, hothers, hself,
    ← Multiset.singleton_add, ← Multiset.singleton_add]
  exact cutExpand_single_add hbelow _

/-- If in every reachable configuration `G` holds or some thread can proceed, every schedule comes to
`G`. -/
theorem inevitably_of_progress {G : Config ι S E R α → Prop}
    (hprogress : ∀ tr c, Run M c₀ tr c → G c ∨ ∃ c', Proceeds M c c') (h : Run M c₀ tr c) :
    Inevitably M G c := by
  have hacc := (below_wf.cutExpand : WellFounded (CutExpand Below)).apply c.left
  generalize hleft : c.left = left at hacc
  induction hacc generalizing c tr with
  | intro left _ ih =>
      subst hleft
      refine .later (fun as => hprogress tr _ (h.after as)) fun as c' hm => ?_
      obtain ⟨tr', hrun'⟩ := (h.after as).moves hm
      exact ih c'.left hm.cutExpand hrun' rfl

end moves

end Effects
