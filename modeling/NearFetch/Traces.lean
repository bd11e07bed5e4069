import NearFetch.EffectProgram

/-! # What is seen of a path

`obs` says what an observer sees of an effect and its reply, if anything.  `Shows obs p os a` says that the
program `p` can end with `a` and has then shown `os`: its meaning as a set of observed traces with results.
The meaning of a program is that of its parts (`shows_bind`), and a part that shows nothing only contributes
its results (`Only.shows`).  The observer is a protocol as well, so what every end looks like can be shown by
the rules for protocols (`Follows.shows`). -/

namespace Effects

variable {E O : Type} {R : E → Type} {α β : Type}

/-- The program can end with `a`. -/
def CanReturn (p : Prog E R α) (a : α) : Prop := ∃ l, Returns p l a

/-- The program can end with `a` after it has shown `os`. -/
def Shows (obs : Act E R → Option O) (p : Prog E R α) (os : List O) (a : α) : Prop :=
  ∃ l, Returns p l a ∧ l.filterMap obs = os

variable {obs : Act E R → Option O} {p : Prog E R α} {os : List O}

@[simp] theorem shows_pure {a b : α} :
    Shows obs (pure a : Prog E R α) os b ↔ os = [] ∧ b = a := by
  constructor
  · rintro ⟨l, hl, rfl⟩
    obtain ⟨rfl, rfl⟩ := returns_pure.mp hl
    exact ⟨rfl, rfl⟩
  · rintro ⟨rfl, rfl⟩
    exact ⟨[], returns_pure.mpr ⟨rfl, rfl⟩, rfl⟩

theorem shows_perform {e : E} {f : R e → Prog E R α} {a : α} :
    Shows obs (Prog.perform e >>= f) os a ↔
      ∃ r os', os = (obs ⟨e, r⟩).toList ++ os' ∧ Shows obs (f r) os' a := by
  constructor
  · rintro ⟨l, hl, rfl⟩
    obtain ⟨r, l', rfl, hl'⟩ := returns_op.mp hl
    refine ⟨r, l'.filterMap obs, ?_, l', hl', rfl⟩
    rw [List.filterMap_cons]
    cases obs ⟨e, r⟩ <;> rfl
  · rintro ⟨r, os', rfl, l', hl', rfl⟩
    refine ⟨⟨e, r⟩ :: l', returns_op.mpr ⟨r, l', rfl, hl'⟩, ?_⟩
    rw [List.filterMap_cons]
    cases obs ⟨e, r⟩ <;> rfl

/-- The rule of sequential composition. -/
theorem shows_bind {f : α → Prog E R β} {b : β} :
    Shows obs (p >>= f) os b ↔
      ∃ a os₁ os₂, os = os₁ ++ os₂ ∧ Shows obs p os₁ a ∧ Shows obs (f a) os₂ b := by
  constructor
  · rintro ⟨l, hl, rfl⟩
    obtain ⟨a, l₁, l₂, rfl, h₁, h₂⟩ := returns_bind.mp hl
    exact ⟨a, _, _, List.filterMap_append, ⟨l₁, h₁, rfl⟩, ⟨l₂, h₂, rfl⟩⟩
  · rintro ⟨a, os₁, os₂, rfl, ⟨l₁, h₁, rfl⟩, ⟨l₂, h₂, rfl⟩⟩
    exact ⟨l₁ ++ l₂, returns_bind.mpr ⟨a, l₁, l₂, rfl, h₁, h₂⟩, List.filterMap_append⟩

theorem shows_map {f : α → β} {b : β} :
    Shows obs (p >>= fun a => pure (f a)) os b ↔ ∃ a, Shows obs p os a ∧ b = f a := by
  rw [shows_bind]
  constructor
  · rintro ⟨a, os₁, os₂, rfl, h₁, h₂⟩
    obtain ⟨rfl, rfl⟩ := shows_pure.mp h₂
    rw [List.append_nil]
    exact ⟨a, h₁, rfl⟩
  · rintro ⟨a, h, rfl⟩
    exact ⟨a, os, [], (List.append_nil os).symm, h, shows_pure.mpr ⟨rfl, rfl⟩⟩

theorem Only.shows {A : E → Prop} (hA : ∀ e r, A e → obs ⟨e, r⟩ = none) (hp : Only A p) {a : α}
    (h : Shows obs p os a) : os = [] := by
  obtain ⟨l, hl, rfl⟩ := h
  have heffects := (hp.leads hl).1
  rw [List.filterMap_eq_nil_iff]
  exact fun act hact => hA act.effect act.reply (heffects act hact)

/-- The path on which each effect has the given reply, with the result. -/
def Prog.walk (reply : (e : E) → R e) : Prog E R α → Option (List (Act E R) × α)
  | .pure a => some ([], a)
  | .op e k => (Prog.walk reply (k (reply e))).map fun rest => (⟨e, reply e⟩ :: rest.1, rest.2)
  | .panic _ => none

theorem walk_returns (reply : (e : E) → R e) {l : List (Act E R)} {a : α}
    (h : p.walk reply = some (l, a)) : Returns p l a := by
  induction p generalizing l with
  | pure b =>
      obtain ⟨rfl, rfl⟩ := Prod.mk.inj (Option.some.inj h)
      exact .refl _
  | op e k ih =>
      obtain ⟨⟨l', a'⟩, hwalk, hend⟩ := Option.map_eq_some_iff.mp h
      obtain ⟨rfl, rfl⟩ := Prod.mk.inj hend
      exact .step (ih _ hwalk)
  | panic msg => cases h

/-! ### Recording -/

/-- The observer as a protocol, which allows everything and writes down what it sees. -/
def recorder (obs : Act E R → Option O) : Protocol E R where
  State := List O
  next os e r := os ++ (obs ⟨e, r⟩).toList
  allowed _ _ := True
  mayPanic _ := True

theorem recorder_after (os : List O) (l : List (Act E R)) :
    (recorder obs).after os l = os ++ l.filterMap obs := by
  induction l generalizing os with
  | nil => exact (List.append_nil os).symm
  | cons act l ih =>
      have hcons : (recorder obs).after os (act :: l) =
          (recorder obs).after (os ++ (obs act).toList) l := rfl
      rw [hcons, ih, List.filterMap_cons]
      cases obs act with
      | none => exact congrArg (· ++ l.filterMap obs) (List.append_nil os)
      | some o => exact List.append_assoc os [o] (l.filterMap obs)

/-- What is recorded from the beginning to the end is what is shown. -/
theorem Follows.shows {Q : α → List O → Prop} (h : Follows (recorder obs) Q [] p) {a : α}
    (hs : Shows obs p os a) : Q a os := by
  obtain ⟨l, hl, rfl⟩ := hs
  have hend : Q a ((recorder obs).after [] l) := (h.leads hl).2
  rwa [recorder_after, List.nil_append] at hend

end Effects
