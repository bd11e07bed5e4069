import NearFetch.EffectProgram

/-! # Threads of effect programs, interleaved over a shared state

A `Machine` gives the effects their meaning on a shared state `S`: `perform t e ans s` is the
reply and the new state when thread `t` performs `e` in `s`, or `none` when `t` is blocked
there.  `ans` is what the environment answers to an effect that is a question to it; the
other effects ignore it.  `discard t` is what the shared state loses when thread `t` is
dropped, and `ambient a` is a step that the environment takes on its own.

* **Runs.**  `Run M c₀ tr c`: the configuration `c` is reached from `c₀` by some interleaving
  whose effects, with their threads and replies, are the trace `tr`.  At any point a thread
  that has not ended may be dropped; a panicking thread only can be.
* **Threads.**  What one thread did in a run is a path of its program (`Run.leads`), so
  facts about paths are facts about every interleaving.
* **Invariants.**  `Sound M P I` is the proof obligation of a global invariant `I` relating the
  trace, the protocol states of the threads and the shared state: one allowed effect at a
  time keeps it.  `Run.invariant` concludes that it holds in every reachable configuration
  of threads that follow the protocol.
* **Alone.**  `Machine.solo` runs a single program to its end; `solo_run` says that this is
  one of the machine's runs.  `Ends M t ans p s a s'` is the same as a relation, with a rule for
  each way to build a program. -/

namespace Effects

variable {ι S A E : Type} {R : E → Type} {α β : Type}

/-- The meaning of the effects on a shared state. -/
structure Machine (ι S A E : Type) (R : E → Type) where
  perform : ι → (e : E) → Option (R e) → S → Option (R e × S)
  discard : ι → S → S
  ambient : A → S → S

/-- A shared state and the threads; a thread that was dropped is `none`. -/
structure Config (ι S E : Type) (R : E → Type) (α : Type) where
  shared : S
  thread : ι → Option (Prog E R α)

/-- An effect performed in a run, with its thread and reply. -/
structure Event (ι E : Type) (R : E → Type) where
  thread : ι
  act : Act E R

namespace Config

/-- All threads at their beginning. -/
def start (s : S) (prog : ι → Prog E R α) : Config ι S E R α := ⟨s, fun t => some (prog t)⟩

variable [DecidableEq ι] (c : Config ι S E R α)

/-- Thread `t` goes on with `p` (or is dropped) and the shared state becomes `s`. -/
def advance (t : ι) (p : Option (Prog E R α)) (s : S) : Config ι S E R α :=
  ⟨s, Function.update c.thread t p⟩

@[simp] theorem advance_shared (t : ι) (p : Option (Prog E R α)) (s : S) :
    (c.advance t p s).shared = s := rfl

@[simp] theorem advance_thread (t : ι) (p : Option (Prog E R α)) (s : S) :
    (c.advance t p s).thread = Function.update c.thread t p := rfl

end Config

/-! ### Runs -/

section runs

variable [DecidableEq ι] (M : Machine ι S A E R)

/-- `Run M c₀ tr c`: `c` is reached from `c₀` by an interleaving with trace `tr`. -/
inductive Run (c₀ : Config ι S E R α) : List (Event ι E R) → Config ι S E R α → Prop
  | start : Run c₀ [] c₀
  | act {tr : List (Event ι E R)} {c : Config ι S E R α} {t : ι} {e : E}
      {k : R e → Prog E R α} {ans : Option (R e)} {r : R e} {s : S} :
      Run c₀ tr c → c.thread t = some (.op e k) → M.perform t e ans c.shared = some (r, s) →
      Run c₀ (tr ++ [⟨t, ⟨e, r⟩⟩]) (c.advance t (some (k r)) s)
  | drop {tr : List (Event ι E R)} {c : Config ι S E R α} {t : ι} {p : Prog E R α} :
      Run c₀ tr c → c.thread t = some p → ¬ p.Done →
      Run c₀ tr (c.advance t none (M.discard t c.shared))
  | ambient {tr : List (Event ι E R)} {c : Config ι S E R α} (a : A) :
      Run c₀ tr c → Run c₀ tr { c with shared := M.ambient a c.shared }

/-- The moves of an executable schedule: a thread performs its next effect, given what the
environment would answer to each question; a thread is dropped; the environment moves. -/
inductive Move (ι A E : Type) (R : E → Type) where
  | act (t : ι) (ans : (e : E) → Option (R e))
  | drop (t : ι)
  | ambient (a : A)

/-- One move of a schedule, with the effects it adds to the trace. -/
def Machine.move (c : Config ι S E R α) :
    Move ι A E R → Option (List (Event ι E R) × Config ι S E R α)
  | .act t ans => match c.thread t with
    | some (.op e k) => match M.perform t e (ans e) c.shared with
      | some (r, s) => some ([⟨t, ⟨e, r⟩⟩], c.advance t (some (k r)) s)
      | none => none
    | _ => none
  | .drop t => match c.thread t with
    | some (.op _ _) => some ([], c.advance t none (M.discard t c.shared))
    | some (.panic _) => some ([], c.advance t none (M.discard t c.shared))
    | _ => none
  | .ambient a => some ([], { c with shared := M.ambient a c.shared })

/-- A whole schedule from `c`, after the trace `tr`. -/
def Machine.exec (tr : List (Event ι E R)) (c : Config ι S E R α) :
    List (Move ι A E R) → Option (List (Event ι E R) × Config ι S E R α)
  | [] => some (tr, c)
  | m :: ms => match M.move c m with
    | some (evs, c') => Machine.exec (tr ++ evs) c' ms
    | none => none

variable {M}

theorem Run.move {c₀ c c' : Config ι S E R α} {tr evs : List (Event ι E R)} {m : Move ι A E R}
    (h : Run M c₀ tr c) (hm : M.move c m = some (evs, c')) : Run M c₀ (tr ++ evs) c' := by
  cases m with
  | act t ans =>
      unfold Machine.move at hm
      cases ht : c.thread t with
      | none => simp [ht] at hm
      | some p =>
          cases p with
          | pure a => simp [ht] at hm
          | panic msg => simp [ht] at hm
          | op e k =>
              simp only [ht] at hm
              cases hp : M.perform t e (ans e) c.shared with
              | none => simp [hp] at hm
              | some q =>
                  simp only [hp, Option.some.injEq, Prod.mk.injEq] at hm
                  obtain ⟨rfl, rfl⟩ := hm
                  exact h.act ht hp
  | drop t =>
      unfold Machine.move at hm
      cases ht : c.thread t with
      | none => simp [ht] at hm
      | some p =>
          cases p with
          | pure a => simp [ht] at hm
          | panic msg =>
              simp only [ht, Option.some.injEq, Prod.mk.injEq] at hm
              obtain ⟨rfl, rfl⟩ := hm
              simpa using h.drop ht (by simp [Prog.Done])
          | op e k =>
              simp only [ht, Option.some.injEq, Prod.mk.injEq] at hm
              obtain ⟨rfl, rfl⟩ := hm
              simpa using h.drop ht (by simp [Prog.Done])
  | ambient a =>
      simp only [Machine.move, Option.some.injEq, Prod.mk.injEq] at hm
      obtain ⟨rfl, rfl⟩ := hm
      simpa using h.ambient a

theorem Run.exec {c₀ c c' : Config ι S E R α} {tr tr' : List (Event ι E R)}
    {ms : List (Move ι A E R)} (h : Run M c₀ tr c) (hm : M.exec tr c ms = some (tr', c')) :
    Run M c₀ tr' c' := by
  induction ms generalizing tr c with
  | nil =>
      simp only [Machine.exec, Option.some.injEq, Prod.mk.injEq] at hm
      obtain ⟨rfl, rfl⟩ := hm
      exact h
  | cons m ms ih =>
      simp only [Machine.exec] at hm
      cases hs : M.move c m with
      | none => simp [hs] at hm
      | some q =>
          simp only [hs] at hm
          exact ih (h.move hs) hm

theorem Run.trans {c₀ c₁ c₂ : Config ι S E R α} {tr₁ tr₂ : List (Event ι E R)}
    (h₁ : Run M c₀ tr₁ c₁) (h₂ : Run M c₁ tr₂ c₂) : Run M c₀ (tr₁ ++ tr₂) c₂ := by
  induction h₂ with
  | start => simpa using h₁
  | act _ ht hp ih =>
      rw [← List.append_assoc]
      exact ih.act ht hp
  | drop _ ht hp ih => exact ih.drop ht hp
  | ambient a _ ih => exact ih.ambient a

/-- The configuration before an event of the trace, the step that the event is, and the run that went on
from there. -/
theorem Run.resume {c₀ c : Config ι S E R α} {pre post : List (Event ι E R)} {t : ι} {e : E}
    {r : R e} (h : Run M c₀ (pre ++ ⟨t, ⟨e, r⟩⟩ :: post) c) :
    ∃ c₁ k ans s, Run M c₀ pre c₁ ∧ c₁.thread t = some (.op e k) ∧
      M.perform t e ans c₁.shared = some (r, s) ∧
      Run M (c₁.advance t (some (k r)) s) post c := by
  generalize htr : pre ++ ⟨t, ⟨e, r⟩⟩ :: post = tr at h
  induction h generalizing post with
  | start => simp at htr
  | @act tr c t' e' k ans r' s h ht hp ih =>
      rcases List.eq_nil_or_concat post with rfl | ⟨post', ev, rfl⟩
      · obtain ⟨rfl, hev⟩ := List.append_inj' htr rfl
        cases hev
        exact ⟨c, k, ans, s, h, ht, hp, .start⟩
      · rw [List.concat_eq_append, ← List.cons_append, ← List.append_assoc] at htr
        obtain ⟨htr', hev⟩ := List.append_inj' htr rfl
        cases hev
        obtain ⟨c₁, k₁, ans₁, s₁, h₁, ht₁, hp₁, hrest⟩ := ih htr'
        rw [List.concat_eq_append]
        exact ⟨c₁, k₁, ans₁, s₁, h₁, ht₁, hp₁, hrest.act ht hp⟩
  | drop _ ht hdone ih =>
      obtain ⟨c₁, k₁, ans₁, s₁, h₁, ht₁, hp₁, hrest⟩ := ih htr
      exact ⟨c₁, k₁, ans₁, s₁, h₁, ht₁, hp₁, hrest.drop ht hdone⟩
  | ambient a _ ih =>
      obtain ⟨c₁, k₁, ans₁, s₁, h₁, ht₁, hp₁, hrest⟩ := ih htr
      exact ⟨c₁, k₁, ans₁, s₁, h₁, ht₁, hp₁, hrest.ambient a⟩

theorem Run.split {c₀ c : Config ι S E R α} {pre post : List (Event ι E R)} {t : ι} {e : E}
    {r : R e} (h : Run M c₀ (pre ++ ⟨t, ⟨e, r⟩⟩ :: post) c) :
    ∃ c₁ k ans s, Run M c₀ pre c₁ ∧ c₁.thread t = some (.op e k) ∧
      M.perform t e ans c₁.shared = some (r, s) ∧
      Run M c₀ (pre ++ [⟨t, ⟨e, r⟩⟩]) (c₁.advance t (some (k r)) s) := by
  obtain ⟨c₁, k, ans, s, h₁, ht, hp, -⟩ := h.resume
  exact ⟨c₁, k, ans, s, h₁, ht, hp, h₁.act ht hp⟩

theorem Run.gone {c₀ c : Config ι S E R α} {tr : List (Event ι E R)} {t : ι} (h : Run M c₀ tr c)
    (ht : c₀.thread t = none) : c.thread t = none := by
  induction h with
  | start => exact ht
  | @act tr c u e k ans r s _ hu _ ih =>
      have hne : t ≠ u := by
        rintro rfl
        rw [ih] at hu
        cases hu
      rw [Config.advance_thread, Function.update_of_ne hne]
      exact ih
  | @drop tr c u p _ hu _ ih =>
      have hne : t ≠ u := by
        rintro rfl
        rw [ih] at hu
        cases hu
      rw [Config.advance_thread, Function.update_of_ne hne]
      exact ih
  | ambient a _ ih => exact ih

end runs

/-! ### The acts of one thread -/

section acts

variable [DecidableEq ι]

/-- What thread `t` did in the trace. -/
def acts (t : ι) (tr : List (Event ι E R)) : List (Act E R) :=
  (tr.filter fun ev => ev.thread = t).map Event.act

@[simp] theorem acts_nil (t : ι) : acts t ([] : List (Event ι E R)) = [] := rfl

theorem acts_append (t : ι) (tr tr' : List (Event ι E R)) :
    acts t (tr ++ tr') = acts t tr ++ acts t tr' := by
  simp [acts]

@[simp] theorem acts_cons_self (t : ι) (a : Act E R) (tr : List (Event ι E R)) :
    acts t (⟨t, a⟩ :: tr) = a :: acts t tr := by
  simp [acts]

theorem acts_cons_ne {t u : ι} (h : u ≠ t) (a : Act E R) (tr : List (Event ι E R)) :
    acts t (⟨u, a⟩ :: tr) = acts t tr := by
  simp [acts, h]

/-- A split of what one thread did is a split of the trace. -/
theorem acts_eq_append {t : ι} {a : Act E R} {tr : List (Event ι E R)} {l₁ l₂ : List (Act E R)}
    (h : acts t tr = l₁ ++ a :: l₂) :
    ∃ tr₁ tr₂, tr = tr₁ ++ ⟨t, a⟩ :: tr₂ ∧ acts t tr₁ = l₁ ∧ acts t tr₂ = l₂ := by
  induction tr generalizing l₁ with
  | nil => simp at h
  | cons ev tr ih =>
      obtain ⟨u, b⟩ := ev
      by_cases hu : u = t
      · subst hu
        rw [acts_cons_self] at h
        cases l₁ with
        | nil =>
            obtain ⟨rfl, rfl⟩ := List.cons.inj h
            exact ⟨[], tr, rfl, rfl, rfl⟩
        | cons b' l₁ =>
            obtain ⟨rfl, htl⟩ := List.cons.inj h
            obtain ⟨tr₁, tr₂, rfl, h₁, h₂⟩ := ih htl
            exact ⟨⟨u, b⟩ :: tr₁, tr₂, rfl, by rw [acts_cons_self, h₁], h₂⟩
      · rw [acts_cons_ne hu] at h
        obtain ⟨tr₁, tr₂, rfl, h₁, h₂⟩ := ih h
        exact ⟨⟨u, b⟩ :: tr₁, tr₂, rfl, by rw [acts_cons_ne hu, h₁], h₂⟩

theorem mem_acts {t : ι} {a : Act E R} {tr : List (Event ι E R)} :
    a ∈ acts t tr ↔ (⟨t, a⟩ : Event ι E R) ∈ tr := by
  simp only [acts, List.mem_map, List.mem_filter, decide_eq_true_eq]
  constructor
  · rintro ⟨ev, ⟨hmem, rfl⟩, rfl⟩
    exact hmem
  · intro h
    exact ⟨_, ⟨h, rfl⟩, rfl⟩

variable {M : Machine ι S A E R} {s₀ : S} {prog : ι → Prog E R α}

/-- What a thread did in a run is a path of its program, up to the point where it is now
or was dropped. -/
theorem Run.leads {tr : List (Event ι E R)} {c : Config ι S E R α}
    (h : Run M (.start s₀ prog) tr c) (t : ι) :
    ∃ q, Leads (prog t) (acts t tr) q ∧ (c.thread t = some q ∨ c.thread t = none) := by
  induction h with
  | start => exact ⟨prog t, .refl _, .inl rfl⟩
  | @act tr c u e k ans r s _ hu _ ih =>
      obtain ⟨q, hq, hc⟩ := ih
      rw [acts_append]
      by_cases htu : u = t
      · subst htu
        rw [hu] at hc
        simp only [Option.some.injEq, reduceCtorEq, or_false] at hc
        subst hc
        exact ⟨k r, by simpa using hq.snoc r, .inl (by simp)⟩
      · rw [acts_cons_ne htu]
        exact ⟨q, by simpa using hq, by simpa [Function.update_of_ne (Ne.symm htu)] using hc⟩
  | @drop tr c u p _ _ _ ih =>
      obtain ⟨q, hq, hc⟩ := ih
      by_cases htu : u = t
      · subst htu
        exact ⟨q, hq, .inr (by simp)⟩
      · exact ⟨q, hq, by simpa [Function.update_of_ne (Ne.symm htu)] using hc⟩
  | ambient a _ ih => exact ih

theorem Run.leads_of_thread {tr : List (Event ι E R)} {c : Config ι S E R α}
    (h : Run M (.start s₀ prog) tr c) {t : ι} {p : Prog E R α} (ht : c.thread t = some p) :
    Leads (prog t) (acts t tr) p := by
  obtain ⟨q, hq, hc⟩ := h.leads t
  rw [ht] at hc
  simp only [Option.some.injEq, reduceCtorEq, or_false] at hc
  rwa [hc]

end acts

/-! ### Invariants of threads that follow a protocol -/

section invariants

variable [DecidableEq ι] (M : Machine ι S A E R) (P : Protocol E R)

/-- The protocol states of the threads of `c`, where each started in `m₀` and the trace is
`tr`; a dropped thread has none. -/
def ghost (m₀ : P.State) (tr : List (Event ι E R)) (c : Config ι S E R α) (t : ι) :
    Option P.State :=
  (c.thread t).map fun _ => P.after m₀ (acts t tr)

/-- The obligation of a global invariant: allowed effects, drops and the moves of the
environment keep it. -/
structure Sound (I : List (Event ι E R) → (ι → Option P.State) → S → Prop) : Prop where
  act : ∀ {tr g s t m e ans r s'}, I tr g s → g t = some m → P.allowed m e →
    M.perform t e ans s = some (r, s') →
    I (tr ++ [⟨t, ⟨e, r⟩⟩]) (Function.update g t (some (P.next m e r))) s'
  drop : ∀ {tr g s t m}, I tr g s → g t = some m → I tr (Function.update g t none) (M.discard t s)
  ambient : ∀ {tr g s} (a : A), I tr g s → I tr g (M.ambient a s)

variable {M P}

theorem ghost_of_thread {m₀ : P.State} {tr : List (Event ι E R)} {c : Config ι S E R α} {t : ι}
    {p : Prog E R α} (ht : c.thread t = some p) :
    ghost P m₀ tr c t = some (P.after m₀ (acts t tr)) := by
  rw [ghost, ht]
  rfl

theorem ghost_eq_some {m₀ m : P.State} {tr : List (Event ι E R)} {c : Config ι S E R α} {t : ι}
    (h : ghost P m₀ tr c t = some m) :
    ∃ p, c.thread t = some p ∧ m = P.after m₀ (acts t tr) := by
  obtain ⟨p, hp, hm⟩ := Option.map_eq_some_iff.mp h
  exact ⟨p, hp, hm.symm⟩

theorem ghost_act {m₀ : P.State} {tr : List (Event ι E R)} {c : Config ι S E R α} {t : ι} {e : E}
    {k : R e → Prog E R α} (ht : c.thread t = some (.op e k)) (r : R e) (s : S) :
    ghost P m₀ (tr ++ [⟨t, ⟨e, r⟩⟩]) (c.advance t (some (k r)) s) =
      Function.update (ghost P m₀ tr c) t (some (P.next (P.after m₀ (acts t tr)) e r)) := by
  funext u
  by_cases hu : u = t
  · subst hu
    simp [ghost, acts_append, Protocol.after_append]
  · simp [ghost, acts_append, acts_cons_ne (Ne.symm hu), Function.update_of_ne hu]

theorem ghost_drop {m₀ : P.State} {tr : List (Event ι E R)} {c : Config ι S E R α} {t : ι} (s : S) :
    ghost P m₀ tr (c.advance t none s) = Function.update (ghost P m₀ tr c) t none := by
  funext u
  by_cases hu : u = t
  · subst hu
    simp [ghost]
  · simp [ghost, Function.update_of_ne hu]

variable {s₀ : S} {prog : ι → Prog E R α} {Q : α → P.State → Prop} {m₀ : P.State}

/-- Each thread of a run has obeyed the protocol that its program follows. -/
theorem Run.obeys (hf : ∀ t, Follows P Q m₀ (prog t)) {tr : List (Event ι E R)}
    {c : Config ι S E R α} (h : Run M (.start s₀ prog) tr c) (t : ι) :
    P.Obeys m₀ (acts t tr) := by
  obtain ⟨q, hq, -⟩ := h.leads t
  exact ((hf t).leads hq).1

/-- Where in the protocol a thread was when it performed an event, and that it went on from there. -/
theorem Run.obeys_event (hf : ∀ t, Follows P Q m₀ (prog t)) {pre post : List (Event ι E R)} {t : ι}
    {a : Act E R} {c : Config ι S E R α}
    (h : Run M (.start s₀ prog) (pre ++ ⟨t, a⟩ :: post) c) :
    P.Obeys m₀ (acts t pre) ∧ P.allowed (P.after m₀ (acts t pre)) a.effect ∧
      P.Obeys (P.next (P.after m₀ (acts t pre)) a.effect a.reply) (acts t post) := by
  have ho := h.obeys hf t
  rw [acts_append, acts_cons_self] at ho
  obtain ⟨hpre, ha, hpost⟩ := ho.append
  exact ⟨hpre, ha, hpost⟩

theorem Run.follows (hf : ∀ t, Follows P Q m₀ (prog t)) {tr : List (Event ι E R)}
    {c : Config ι S E R α} (h : Run M (.start s₀ prog) tr c) {t : ι} {p : Prog E R α}
    (ht : c.thread t = some p) : Follows P Q (P.after m₀ (acts t tr)) p :=
  ((hf t).leads (h.leads_of_thread ht)).2

/-- A sound invariant holds in every reachable configuration. -/
theorem Run.invariant {I : List (Event ι E R) → (ι → Option P.State) → S → Prop}
    (hI : Sound M P I) (h₀ : I [] (fun _ => some m₀) s₀)
    (hf : ∀ t, Follows P Q m₀ (prog t)) {tr : List (Event ι E R)} {c : Config ι S E R α}
    (h : Run M (.start s₀ prog) tr c) : I tr (ghost P m₀ tr c) c.shared := by
  induction h with
  | start => exact h₀
  | @act tr c t e k ans r s h ht hp ih =>
      have hfol := h.follows hf ht
      rw [ghost_act ht]
      exact hI.act ih (ghost_of_thread ht) hfol.1 hp
  | @drop tr c t p h ht _ ih =>
      rw [ghost_drop]
      exact hI.drop ih (ghost_of_thread ht)
  | ambient a _ ih => exact hI.ambient a ih

end invariants

/-! ### One program alone -/

section solo

variable (M : Machine ι S A E R) (t : ι) (ans : S → (e : E) → Option (R e))

/-- Runs a program of thread `t` to its end; the environment answers by `ans`.  The result
is `none` when the program blocks or panics. -/
def Machine.solo : Prog E R α → S → Option (α × S)
  | .pure a, s => some (a, s)
  | .op e k, s => match M.perform t e (ans s e) s with
    | some (r, s') => Machine.solo (k r) s'
    | none => none
  | .panic _, _ => none

theorem solo_op (e : E) (k : R e → Prog E R α) (s : S) :
    M.solo t ans (.op e k) s = (M.perform t e (ans s e) s).bind fun x => M.solo t ans (k x.1) x.2 := by
  simp only [Machine.solo]
  cases M.perform t e (ans s e) s <;> rfl

theorem solo_bind (p : Prog E R α) (f : α → Prog E R β) (s : S) :
    M.solo t ans (p >>= f) s = (M.solo t ans p s).bind fun x => M.solo t ans (f x.1) x.2 := by
  induction p generalizing s with
  | pure a => rfl
  | op e k ih =>
      rw [Prog.op_bind, solo_op, solo_op]
      cases M.perform t e (ans s e) s with
      | none => rfl
      | some x => exact ih x.1 x.2
  | panic msg => rfl

/-- A program that ran alone to its end with `a` is a thread that can end with `a` in a run. -/
theorem solo_run [DecidableEq ι] {M : Machine ι S A E R} {t : ι}
    {ans : S → (e : E) → Option (R e)} {p : Prog E R α} {s' : S} {a : α} :
    ∀ {c : Config ι S E R α}, c.thread t = some p → M.solo t ans p c.shared = some (a, s') →
      ∃ tr, Run M c tr (c.advance t (some (.pure a)) s') ∧ Returns p (acts t tr) a := by
  induction p with
  | pure b =>
      intro c ht h
      simp only [Machine.solo, Option.some.injEq, Prod.mk.injEq] at h
      obtain ⟨rfl, rfl⟩ := h
      refine ⟨[], ?_, .refl _⟩
      have : c.advance t (some (.pure b)) c.shared = c := by
        rw [Config.advance, ← ht, Function.update_eq_self]
      rw [this]
      exact .start
  | op e k ih =>
      intro c ht h
      rw [solo_op] at h
      obtain ⟨⟨r, s₁⟩, hp, h⟩ := Option.bind_eq_some_iff.mp h
      have h₁ : Run M c ([] ++ [⟨t, ⟨e, r⟩⟩]) (c.advance t (some (k r)) s₁) := Run.start.act ht hp
      obtain ⟨tr, h₂, hr⟩ := ih r (c := c.advance t (some (k r)) s₁) (by simp) h
      have hadv : (c.advance t (some (k r)) s₁).advance t (some (.pure a)) s' =
          c.advance t (some (.pure a)) s' := by
        simp [Config.advance]
      rw [hadv] at h₂
      have hacts : acts t ([] ++ [⟨t, ⟨e, r⟩⟩] ++ tr) = ⟨e, r⟩ :: acts t tr := by simp
      exact ⟨_, h₁.trans h₂, hacts ▸ Leads.step hr⟩
  | panic msg =>
      intro c _ h
      simp [Machine.solo] at h

/-- Alone from `s`, the program of thread `t` ends with `a` in `s'`. -/
def Ends (p : Prog E R α) (s : S) (a : α) (s' : S) : Prop := M.solo t ans p s = some (a, s')

variable {M t ans}

theorem ends_pure (a : α) (s : S) : Ends M t ans (pure a) s a s := rfl

theorem Ends.op {e : E} {k : R e → Prog E R α} {s s₁ s' : S} {r : R e} {a : α}
    (hp : M.perform t e (ans s e) s = some (r, s₁)) (hk : Ends M t ans (k r) s₁ a s') :
    Ends M t ans (.op e k) s a s' := by
  rw [Ends, solo_op, hp]
  exact hk

theorem Ends.perform {e : E} {s s' : S} {r : R e}
    (hp : M.perform t e (ans s e) s = some (r, s')) : Ends M t ans (Prog.perform e) s r s' :=
  .op hp (ends_pure r s')

theorem Ends.bind {p : Prog E R α} {f : α → Prog E R β} {s s₁ s' : S} {a : α} {b : β}
    (hp : Ends M t ans p s a s₁) (hf : Ends M t ans (f a) s₁ b s') :
    Ends M t ans (p >>= f) s b s' := by
  rw [Ends, solo_bind, hp]
  exact hf

end solo

end Effects
