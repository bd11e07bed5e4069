import Mathlib.Data.List.Range
import Mathlib.Data.List.Infix

/-! # Tickets drawn from a counter that can be reset

The abstract object behind a cache of one counter: it is closed, or it is open and every draw
takes the next ticket.  Opening it fixes the first ticket, which is drawn by whoever opened it;
closing it forgets everything, and it may be opened again at any other ticket.  The time between an
opening and the next closing is an `Epoch`, whose tickets are consecutive by construction.

`run_opened` reads the epoch off a run: after the last opening the tickets taken are those of the
epoch, and nothing was opened since.  `open_since` says that an open counter is in such an
epoch.  `repeated` says how a ticket can come up again in a run, or a smaller one: between the two draws
the counter was closed, and opened again at a ticket that is not larger. -/

namespace TicketCounter

/-- The first ticket of an open counter and all tickets drawn since, oldest first. -/
structure Epoch where
  first : ℕ
  drawn : List ℕ
  nonempty : drawn ≠ []
  consecutive : drawn = List.range' first drawn.length

namespace Epoch

/-- The epoch that begins with ticket `v`. -/
def begin (v : ℕ) : Epoch := ⟨v, [v], by simp, by simp⟩

/-- The ticket drawn last. -/
def last (ep : Epoch) : ℕ := ep.first + (ep.drawn.length - 1)

/-- One more draw. -/
def draw (ep : Epoch) : Epoch :=
  ⟨ep.first, ep.drawn ++ [ep.last + 1], by simp, by
    have hpos : 0 < ep.drawn.length := List.length_pos_iff.mpr ep.nonempty
    have hlast : ep.last + 1 = ep.first + ep.drawn.length := by unfold last; omega
    rw [List.length_append, List.length_singleton, List.range'_concat, ← ep.consecutive]
    simp [hlast]⟩

@[simp] theorem begin_last (v : ℕ) : (begin v).last = v := rfl

@[simp] theorem draw_first (ep : Epoch) : ep.draw.first = ep.first := rfl

@[simp] theorem draw_last (ep : Epoch) : ep.draw.last = ep.last + 1 := by
  have hpos : 0 < ep.drawn.length := List.length_pos_iff.mpr ep.nonempty
  simp only [last, draw, List.length_append, List.length_singleton]
  omega

theorem first_le_last (ep : Epoch) : ep.first ≤ ep.last := Nat.le_add_right _ _

theorem getLast?_drawn (ep : Epoch) : ep.drawn.getLast? = some ep.last := by
  have hpos : 0 < ep.drawn.length := List.length_pos_iff.mpr ep.nonempty
  rw [ep.consecutive, List.getLast?_range', if_neg (by omega)]
  simp only [last, Option.some.injEq]
  omega

end Epoch

/-- What happens to the counter. -/
inductive Label where
  | opened (v : ℕ)
  | drew (v : ℕ)
  | closed
deriving DecidableEq, Repr

/-- The ticket that is taken in a step. -/
def Label.ticket : Label → Option ℕ
  | .opened v => some v
  | .drew v => some v
  | .closed => none

/-- One step of the counter: only a closed counter is opened, only an open one is drawn from,
and a draw takes the next ticket. -/
def step : Option Epoch → Label → Option (Option Epoch)
  | none, .opened v => some (some (.begin v))
  | some ep, .drew v => if v = ep.last + 1 then some (some ep.draw) else none
  | _, .closed => some none
  | some _, .opened _ => none
  | none, .drew _ => none

/-- A whole run; `none` when some step is not one of the counter's. -/
def run : Option Epoch → List Label → Option (Option Epoch)
  | st, [] => some st
  | st, a :: l => (step st a).bind fun st' => run st' l

theorem run_append (st : Option Epoch) (l₁ l₂ : List Label) :
    run st (l₁ ++ l₂) = (run st l₁).bind fun st' => run st' l₂ := by
  induction l₁ generalizing st with
  | nil => rfl
  | cons a l₁ ih =>
      simp only [List.cons_append, run]
      cases step st a with
      | none => rfl
      | some st' => exact ih st'

theorem run_concat (st : Option Epoch) (l : List Label) (a : Label) :
    run st (l ++ [a]) = (run st l).bind fun st' => step st' a := by
  rw [run_append]
  congr 1
  funext st'
  simp [run]

theorem run_prefix {st₀ st : Option Epoch} {l₁ l₂ : List Label}
    (h : run st₀ (l₁ ++ l₂) = some st) : ∃ st', run st₀ l₁ = some st' := by
  rw [run_append] at h
  obtain ⟨st', hst, -⟩ := Option.bind_eq_some_iff.mp h
  exact ⟨st', hst⟩

/-! ### Inversion of a step -/

theorem step_opened {st st' : Option Epoch} {v : ℕ} (h : step st (.opened v) = some st') :
    st = none ∧ st' = some (.begin v) := by
  cases st with
  | none => exact ⟨rfl, (Option.some.inj h).symm⟩
  | some ep => cases h

theorem step_drew {st st' : Option Epoch} {v : ℕ} (h : step st (.drew v) = some st') :
    ∃ ep, st = some ep ∧ v = ep.last + 1 ∧ st' = some ep.draw := by
  cases st with
  | none => cases h
  | some ep =>
      simp only [step] at h
      split at h
      · rename_i hv
        exact ⟨ep, rfl, hv, (Option.some.inj h).symm⟩
      · cases h

theorem step_closed {st st' : Option Epoch} (h : step st .closed = some st') : st' = none := by
  cases st <;> exact (Option.some.inj h).symm

theorem step_ticket {st st' : Option Epoch} {a : Label} {v : ℕ} (h : step st a = some st')
    (ha : a.ticket = some v) : ∃ ep, st' = some ep ∧ ep.last = v := by
  cases a with
  | opened u =>
      obtain ⟨-, rfl⟩ := step_opened h
      exact ⟨_, rfl, by simpa [Label.ticket] using ha⟩
  | drew u =>
      obtain ⟨ep, -, hu, rfl⟩ := step_drew h
      refine ⟨_, rfl, ?_⟩
      rw [Epoch.draw_last, ← hu]
      simpa [Label.ticket] using ha
  | closed => cases ha

/-! ### The epoch that a run is in -/

/-- The tickets that were taken, oldest first. -/
def tickets (l : List Label) : List ℕ := l.filterMap Label.ticket

@[simp] theorem tickets_drew (v : ℕ) (l : List Label) :
    tickets (.drew v :: l) = v :: tickets l := rfl

/-- While the counter is not closed, its epoch collects the tickets and nothing is opened. -/
theorem run_open {l : List Label} {ep : Epoch} {st : Option Epoch} (h : run (some ep) l = some st)
    (hc : .closed ∉ l) :
    ∃ ep', st = some ep' ∧ ep'.first = ep.first ∧ ep'.drawn = ep.drawn ++ tickets l ∧
      ∀ v, .opened v ∉ l := by
  induction l generalizing ep with
  | nil =>
      refine ⟨ep, (Option.some.inj h).symm, rfl, ?_, fun v => List.not_mem_nil⟩
      simp [tickets]
  | cons a l ih =>
      rw [run] at h
      obtain ⟨st', hst, h⟩ := Option.bind_eq_some_iff.mp h
      cases a with
      | opened v => cases (step_opened hst).1
      | drew v =>
          obtain ⟨ep₁, hep, hv, rfl⟩ := step_drew hst
          cases hep
          have hl : .closed ∉ l := fun hm => hc (List.mem_cons_of_mem _ hm)
          obtain ⟨ep', hst', hfirst, hdrawn, hopen⟩ := ih h hl
          refine ⟨ep', hst', hfirst, ?_, ?_⟩
          · rw [hdrawn, tickets_drew, hv, Epoch.draw, List.append_assoc]
            rfl
          · intro u hu
            rcases List.mem_cons.mp hu with hu | hu
            · cases hu
            · exact hopen u hu
      | closed => exact absurd List.mem_cons_self hc

theorem run_opened {l₁ l₂ : List Label} {v : ℕ} {st₀ st : Option Epoch}
    (h : run st₀ (l₁ ++ .opened v :: l₂) = some st) (hc : .closed ∉ l₂) :
    ∃ ep, st = some ep ∧ ep.first = v ∧ ep.drawn = v :: tickets l₂ ∧ ∀ u, .opened u ∉ l₂ := by
  rw [run_append] at h
  obtain ⟨st₁, -, h⟩ := Option.bind_eq_some_iff.mp h
  rw [run] at h
  obtain ⟨st₂, hst, h⟩ := Option.bind_eq_some_iff.mp h
  obtain ⟨-, rfl⟩ := step_opened hst
  exact run_open h hc

/-- The epoch that a run from the closed counter is in was opened in that run, and the
counter was not closed since. -/
theorem open_since {l : List Label} {ep : Epoch} (h : run none l = some (some ep)) :
    ∃ l₁ l₂, l = l₁ ++ .opened ep.first :: l₂ ∧ .closed ∉ l₂ := by
  induction l using List.reverseRecOn generalizing ep with
  | nil => cases h
  | append_singleton l a ih =>
      rw [run_concat] at h
      obtain ⟨st, hst, ha⟩ := Option.bind_eq_some_iff.mp h
      cases a with
      | opened v =>
          obtain ⟨-, hv⟩ := step_opened ha
          cases hv
          exact ⟨l, [], rfl, List.not_mem_nil⟩
      | drew v =>
          obtain ⟨ep', rfl, -, hv⟩ := step_drew ha
          cases hv
          obtain ⟨l₁, l₂, rfl, hc⟩ := ih hst
          refine ⟨l₁, l₂ ++ [.drew v], by simp, ?_⟩
          simpa using hc
      | closed => cases step_closed ha

theorem open_of_drew {l₁ l₂ : List Label} {v : ℕ} {st : Option Epoch}
    (h : run none (l₁ ++ .drew v :: l₂) = some st) : ∃ ep, run none l₁ = some (some ep) := by
  rw [run_append] at h
  obtain ⟨st₁, hrun, h⟩ := Option.bind_eq_some_iff.mp h
  rw [run] at h
  obtain ⟨st₂, hst, -⟩ := Option.bind_eq_some_iff.mp h
  obtain ⟨ep, rfl, -, -⟩ := step_drew hst
  exact ⟨ep, hrun⟩

/-! ### Repeated tickets -/

/-- A ticket taken after the counter was closed is not below the ticket it was opened at. -/
theorem opened_before {l : List Label} {b : Label} {st : Option Epoch} {v : ℕ}
    (h : run none (l ++ [b]) = some st) (hb : b.ticket = some v) :
    ∃ l₁ u l₂, l ++ [b] = l₁ ++ .opened u :: l₂ ∧ u ≤ v := by
  have h' := h
  rw [run_concat] at h'
  obtain ⟨st', -, hst⟩ := Option.bind_eq_some_iff.mp h'
  obtain ⟨ep, rfl, hep⟩ := step_ticket hst hb
  obtain ⟨l₁, l₂, hl, -⟩ := open_since h
  exact ⟨l₁, ep.first, l₂, hl, hep ▸ ep.first_le_last⟩

/-- While an epoch lasts its tickets grow, so a ticket that is not above those already
drawn was taken in a later epoch. -/
theorem reopened {l : List Label} {b : Label} {ep : Epoch} {st : Option Epoch} {v : ℕ}
    (h : run (some ep) (l ++ [b]) = some st) (hb : b.ticket = some v) (hv : v ≤ ep.last) :
    ∃ l₁ l₂ u l₃, l ++ [b] = l₁ ++ .closed :: l₂ ++ .opened u :: l₃ ∧ u ≤ v := by
  induction l generalizing ep with
  | nil =>
      rw [List.nil_append, run] at h
      obtain ⟨st', hst, -⟩ := Option.bind_eq_some_iff.mp h
      cases b with
      | opened u => cases (step_opened hst).1
      | drew u =>
          obtain ⟨ep', hep, hu, -⟩ := step_drew hst
          cases hep
          simp only [Label.ticket, Option.some.injEq] at hb
          omega
      | closed => cases hb
  | cons a l ih =>
      rw [List.cons_append, run] at h
      obtain ⟨st', hst, h⟩ := Option.bind_eq_some_iff.mp h
      cases a with
      | opened u => cases (step_opened hst).1
      | drew u =>
          obtain ⟨ep', hep, -, rfl⟩ := step_drew hst
          cases hep
          obtain ⟨l₁, l₂, w, l₃, hl, hw⟩ := ih h (by rw [Epoch.draw_last]; omega)
          exact ⟨.drew u :: l₁, l₂, w, l₃, by rw [List.cons_append, hl]; rfl, hw⟩
      | closed =>
          obtain rfl := step_closed hst
          obtain ⟨l₂, w, l₃, hl, hw⟩ := opened_before h hb
          exact ⟨[], l₂, w, l₃, by rw [List.cons_append, hl]; rfl, hw⟩

/-- If a ticket was taken that is not above one taken before, then in between the counter was closed
and opened again at a ticket that is not larger. -/
theorem repeated {l₁ l₂ : List Label} {a b : Label} {st₀ st : Option Epoch} {v v' : ℕ}
    (h : run st₀ (l₁ ++ a :: (l₂ ++ [b])) = some st) (ha : a.ticket = some v)
    (hb : b.ticket = some v') (hv : v' ≤ v) :
    ∃ m₁ m₂ u m₃, l₂ ++ [b] = m₁ ++ .closed :: m₂ ++ .opened u :: m₃ ∧ u ≤ v' := by
  rw [run_append] at h
  obtain ⟨st₁, -, h⟩ := Option.bind_eq_some_iff.mp h
  rw [run] at h
  obtain ⟨st₂, hst, h⟩ := Option.bind_eq_some_iff.mp h
  obtain ⟨ep, rfl, hep⟩ := step_ticket hst ha
  exact reopened h hb (hv.trans hep.ge)

end TicketCounter
