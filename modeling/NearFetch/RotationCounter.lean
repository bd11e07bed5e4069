import NearFetch.Lists
import NearFetch.Effects

/-! # The rotation counter in a run

What a task reads from a rotation counter depends on the schedule alone: it is the value at the
start plus the number of rotations before the access (`counter_of_run`).  `turns` lists, for one
task, the number of rotations before each of its accesses, without looking at any reply, and
`reads_of_run` says that the task reads the values of those turns. -/

namespace NearFetch

open Effects FifoLock

/-- The effect increments the counter. -/
def Op.rotates (counter : CounterId) : Op → Bool
  | .counterFetchAdd c => decide (c = counter)
  | _ => false

/-- The effect loads or increments the counter. -/
def Op.accesses (counter : CounterId) : Op → Bool
  | .counterLoad c => decide (c = counter)
  | .counterFetchAdd c => decide (c = counter)
  | _ => false

/-- What an access to the counter read. -/
def counterRead (counter : CounterId) : Act Op Op.Reply → Option ℕ
  | ⟨.counterLoad c, v⟩ => if c = counter then some v else none
  | ⟨.counterFetchAdd c, v⟩ => if c = counter then some v else none
  | _ => none

/-- What a task read from the counter, oldest first. -/
def reads (counter : CounterId) (l : List (Act Op Op.Reply)) : List ℕ :=
  l.filterMap (counterRead counter)

@[simp] theorem reads_nil (counter : CounterId) : reads counter [] = [] := rfl

theorem reads_append (counter : CounterId) (l₁ l₂ : List (Act Op Op.Reply)) :
    reads counter (l₁ ++ l₂) = reads counter l₁ ++ reads counter l₂ := List.filterMap_append

theorem reads_singleton (counter : CounterId) (a : Act Op Op.Reply) :
    reads counter [a] = (counterRead counter a).toList := by
  unfold reads
  rw [List.filterMap_cons_toList, List.filterMap_nil, List.append_nil]

section runs

variable {ι : Type}

/-- The number of rotations in the trace. -/
def rotations (counter : CounterId) (tr : List (Event ι Op Op.Reply)) : ℕ :=
  tr.countP fun ev => ev.act.effect.rotates counter

@[simp] theorem rotations_nil (counter : CounterId) :
    rotations counter ([] : List (Event ι Op Op.Reply)) = 0 := rfl

theorem rotations_concat (counter : CounterId) (tr : List (Event ι Op Op.Reply))
    (ev : Event ι Op Op.Reply) : rotations counter (tr ++ [ev]) =
      rotations counter tr + if ev.act.effect.rotates counter = true then 1 else 0 := by
  unfold rotations
  rw [List.countP_append, List.countP_singleton]

variable [DecidableEq ι]

/-- For each access of task `t` to the counter, the rotations before it, after `k` others. -/
def turnsFrom (counter : CounterId) (t : ι) : ℕ → List (Event ι Op Op.Reply) → List ℕ
  | _, [] => []
  | k, ev :: tr =>
      (if ev.thread = t ∧ ev.act.effect.accesses counter = true then [k] else []) ++
        turnsFrom counter t (if ev.act.effect.rotates counter = true then k + 1 else k) tr

/-- For each access of task `t` to the counter, the number of rotations before it. -/
def turns (counter : CounterId) (t : ι) (tr : List (Event ι Op Op.Reply)) : List ℕ :=
  turnsFrom counter t 0 tr

theorem turnsFrom_append (counter : CounterId) (t : ι) (k : ℕ)
    (tr tr' : List (Event ι Op Op.Reply)) :
    turnsFrom counter t k (tr ++ tr') =
      turnsFrom counter t k tr ++ turnsFrom counter t (k + rotations counter tr) tr' := by
  induction tr generalizing k with
  | nil => rfl
  | cons ev tr ih =>
      rw [List.cons_append, turnsFrom, ih, turnsFrom, List.append_assoc]
      have hcount : rotations counter (ev :: tr) =
          (if ev.act.effect.rotates counter = true then 1 else 0) + rotations counter tr := by
        unfold rotations
        rw [List.countP_cons, Nat.add_comm]
      rw [hcount]
      by_cases hr : ev.act.effect.rotates counter = true
      · simp only [hr, if_true]
        rw [show k + 1 + rotations counter tr = k + (1 + rotations counter tr) by omega]
      · simp [hr]

theorem turns_append (counter : CounterId) (t : ι) (tr tr' : List (Event ι Op Op.Reply)) :
    turns counter t (tr ++ tr') =
      turns counter t tr ++ turnsFrom counter t (rotations counter tr) tr' := by
  unfold turns
  rw [turnsFrom_append, Nat.zero_add]

theorem turns_concat (counter : CounterId) (t : ι) (tr : List (Event ι Op Op.Reply))
    (ev : Event ι Op Op.Reply) :
    turns counter t (tr ++ [ev]) = turns counter t tr ++
      if ev.thread = t ∧ ev.act.effect.accesses counter = true
        then [rotations counter tr] else [] := by
  rw [turns_append, turnsFrom, turnsFrom, List.append_nil]

variable {W A α : Type} {w : ℕ} {ep : Endpoint W A} {counter : CounterId}

theorem perform_counters {t : ι} {e : Op} {ans : Option e.Reply} {r : e.Reply}
    {s s' : Shared ι W} (h : perform w ep t e ans s = some (r, s')) :
    s'.counters counter = if e.rotates counter = true then (s.counters counter + 1) % 2 ^ w
      else s.counters counter := by
  cases e with
  | counterFetchAdd c =>
      cases Option.some.inj h
      by_cases hc : c = counter
      · subst hc
        simp [Op.rotates]
      · simp [Op.rotates, hc, Function.update_of_ne (Ne.symm hc)]
  | lockAcquire m =>
      obtain ⟨l, -, rfl⟩ := perform_lockAcquire h
      rfl
  | nonceFetchAdd key =>
      obtain ⟨-, rfl⟩ := perform_nonceFetchAdd h
      rfl
  | rpc call =>
      obtain ⟨e', -, rfl⟩ := perform_rpc h
      rfl
  | _ =>
      cases Option.some.inj h
      rfl

theorem perform_counterRead {t : ι} {e : Op} {ans : Option e.Reply} {r : e.Reply}
    {s s' : Shared ι W} (h : perform w ep t e ans s = some (r, s')) :
    (counterRead counter ⟨e, r⟩).toList =
      if e.accesses counter = true then [s.counters counter] else [] := by
  cases e with
  | counterLoad c =>
      cases Option.some.inj h
      by_cases hc : c = counter
      · simp [counterRead, Op.accesses, hc]
      · simp [counterRead, Op.accesses, hc]
  | counterFetchAdd c =>
      cases Option.some.inj h
      by_cases hc : c = counter
      · simp [counterRead, Op.accesses, hc]
      · simp [counterRead, Op.accesses, hc]
  | _ => rfl

variable {s₀ : Shared ι W} {prog : ι → Task α} {tr : List (Event ι Op Op.Reply)}
  {c : Config ι (Shared ι W) Op Op.Reply α}

/-- The counter holds its value at the start plus the rotations since, modulo `2 ^ w`. -/
theorem counter_of_run (h : Run (machine w ep) (.start s₀ prog) tr c)
    (hstart : s₀.counters counter < 2 ^ w) :
    c.shared.counters counter = (s₀.counters counter + rotations counter tr) % 2 ^ w := by
  induction h with
  | start => exact (Nat.mod_eq_of_lt hstart).symm
  | act h _ hs ih =>
      rw [Config.advance_shared, perform_counters hs, rotations_concat, ih]
      split
      · rw [Nat.mod_add_mod, Nat.add_assoc]
      · rw [Nat.add_zero]
  | drop _ _ _ ih => exact ih
  | ambient a _ ih => exact ih

/-- A task reads the values of its turns. -/
theorem reads_of_run (h : Run (machine w ep) (.start s₀ prog) tr c)
    (hstart : s₀.counters counter < 2 ^ w) (t : ι) :
    reads counter (acts t tr) =
      (turns counter t tr).map fun k => (s₀.counters counter + k) % 2 ^ w := by
  induction h with
  | start => rfl
  | @act tr c u e k ans r s h _ hs ih =>
      rw [turns_concat, List.map_append, ← ih, acts_append, reads_append]
      congr 1
      by_cases hu : u = t
      · subst hu
        rw [acts_cons_self, acts_nil, reads_singleton, perform_counterRead hs,
          counter_of_run h hstart]
        split <;> simp_all
      · rw [acts_cons_ne hu]
        simp [hu]
  | drop _ _ _ ih => exact ih
  | ambient a _ ih => exact ih

end runs

end NearFetch
