import Mathlib.Logic.Function.Basic
import Mathlib.Data.List.Basic

/-! # Programs over effects, their paths and their protocols

A program `Prog E R α` performs effects `e : E` one at a time, receives a reply `r : R e` to
each and ends with a value of `α`, or panics.  Nothing is said here about what an effect
does: the meaning is given to it by the machine that runs the program
(`Interleaving.lean`).

* **Paths.**  `Leads p l q` says that the program `p`, given the replies listed in `l`, has
  `q` left to do; `Returns p l a` says that it ends with `a`.  A path fixes the replies and
  nothing else, so a fact about all paths holds whatever the environment does.
  `returns_bind` splits a path of a sequence into a path of each part.
* **Protocols.**  A `Protocol` is an automaton over effects with replies: it says which
  effects may be performed in each of its states, and where a panic may occur.
  `Follows P Q m p` says that `p`, started in protocol state `m`, performs only allowed effects
  whatever the replies are, and ends with a value and a state related by `Q`.  It is proved
  once for every function
  (`Follows.bind` composes) and holds at every point of every path (`Follows.leads`), and
  `Keeps` is the same for programs that are run one after another.
* **Sets of effects.**  `Only A p` says that `p` performs no effect outside `A`.  Such a program
  leaves alone every protocol that the effects of `A` do not move (`Only.follows`).
* **Panics.**  `Calm p` says that no path of `p` panics; what comes after a calm part of a calm
  program is reached (`Calm.rest`). -/

namespace Effects

/-- Programs over the effects `E`, where the reply to `e` is an element of `R e`. -/
inductive Prog (E : Type) (R : E → Type) (α : Type) where
  | pure (a : α)
  | op (e : E) (k : R e → Prog E R α)
  | panic (msg : String)

variable {E : Type} {R : E → Type} {α β γ : Type}

namespace Prog

/-- Sequential composition. -/
def bind : Prog E R α → (α → Prog E R β) → Prog E R β
  | .pure a, f => f a
  | .op e k, f => .op e fun r => (k r).bind f
  | .panic msg, _ => .panic msg

instance : Monad (Prog E R) where
  pure := Prog.pure
  bind := Prog.bind

/-- The program that performs one effect and returns the reply. -/
def perform (e : E) : Prog E R (R e) := .op e .pure

@[simp] theorem op_bind (e : E) (k : R e → Prog E R α) (f : α → Prog E R β) :
    Prog.op e k >>= f = .op e fun r => k r >>= f := rfl

@[simp] theorem panic_bind (msg : String) (f : α → Prog E R β) :
    (Prog.panic msg : Prog E R α) >>= f = .panic msg := rfl

theorem bind_assoc (p : Prog E R α) (f : α → Prog E R β) (g : β → Prog E R γ) :
    p >>= f >>= g = p >>= fun a => f a >>= g := by
  induction p with
  | pure a => rfl
  | op e k ih => exact congrArg (Prog.op e) (funext ih)
  | panic msg => rfl

theorem bind_pure (p : Prog E R α) : p >>= pure = p := by
  induction p with
  | pure a => rfl
  | op e k ih => exact congrArg (Prog.op e) (funext ih)
  | panic msg => rfl

instance : LawfulMonad (Prog E R) :=
  LawfulMonad.mk' (Prog E R) bind_pure (fun _ _ => rfl) bind_assoc

/-- The program has ended with a value. -/
def Done : Prog E R α → Prop
  | .pure _ => True
  | _ => False

end Prog

/-! ### Paths -/

/-- An effect with the reply it received. -/
structure Act (E : Type) (R : E → Type) where
  effect : E
  reply : R effect

/-- `Leads p l q`: after the effects and replies `l`, `q` is what `p` has left to do. -/
inductive Leads : Prog E R α → List (Act E R) → Prog E R α → Prop
  | refl (p : Prog E R α) : Leads p [] p
  | step {e : E} {k : R e → Prog E R α} {r : R e} {l : List (Act E R)} {q : Prog E R α} :
      Leads (k r) l q → Leads (.op e k) (⟨e, r⟩ :: l) q

/-- `Returns p l a`: with the effects and replies `l`, `p` ends with `a`. -/
def Returns (p : Prog E R α) (l : List (Act E R)) (a : α) : Prop := Leads p l (.pure a)

theorem Leads.trans {p q s : Prog E R α} {l₁ l₂ : List (Act E R)} (h₁ : Leads p l₁ q)
    (h₂ : Leads q l₂ s) : Leads p (l₁ ++ l₂) s := by
  induction h₁ with
  | refl p => exact h₂
  | step _ ih => exact .step (ih h₂)

theorem Leads.snoc {p : Prog E R α} {l : List (Act E R)} {e : E} {k : R e → Prog E R α}
    (h : Leads p l (.op e k)) (r : R e) : Leads p (l ++ [⟨e, r⟩]) (k r) :=
  h.trans (.step (.refl _))

theorem leads_op {e : E} {k : R e → Prog E R α} {l : List (Act E R)} {q : Prog E R α} :
    Leads (.op e k) l q ↔ (l = [] ∧ q = .op e k) ∨ ∃ r l', l = ⟨e, r⟩ :: l' ∧ Leads (k r) l' q := by
  constructor
  · intro h
    cases h with
    | refl => exact .inl ⟨rfl, rfl⟩
    | step h => exact .inr ⟨_, _, rfl, h⟩
  · rintro (⟨rfl, rfl⟩ | ⟨r, l', rfl, h⟩)
    · exact .refl _
    · exact .step h

@[simp] theorem returns_pure {a b : α} {l : List (Act E R)} :
    Returns (pure a : Prog E R α) l b ↔ l = [] ∧ b = a := by
  constructor
  · intro h
    cases h
    exact ⟨rfl, rfl⟩
  · rintro ⟨rfl, rfl⟩
    exact .refl _

@[simp] theorem returns_op {e : E} {k : R e → Prog E R α} {l : List (Act E R)} {a : α} :
    Returns (.op e k) l a ↔ ∃ r l', l = ⟨e, r⟩ :: l' ∧ Returns (k r) l' a := by
  unfold Returns
  rw [leads_op]
  simp

@[simp] theorem not_returns_panic {msg : String} {l : List (Act E R)} {a : α} :
    ¬ Returns (.panic msg : Prog E R α) l a := by
  intro h
  cases h

/-- A path of a sequence is a path of the first part followed by one of the second. -/
theorem returns_bind {p : Prog E R α} {f : α → Prog E R β} {l : List (Act E R)} {b : β} :
    Returns (p >>= f) l b ↔
      ∃ a l₁ l₂, l = l₁ ++ l₂ ∧ Returns p l₁ a ∧ Returns (f a) l₂ b := by
  induction p generalizing l with
  | pure a =>
      constructor
      · intro h
        exact ⟨a, [], l, rfl, .refl _, h⟩
      · rintro ⟨a', l₁, l₂, rfl, h₁, h₂⟩
        obtain ⟨rfl, rfl⟩ := returns_pure.mp h₁
        exact h₂
  | op e k ih =>
      rw [Prog.op_bind, returns_op]
      constructor
      · rintro ⟨r, l', rfl, h⟩
        obtain ⟨a, l₁, l₂, rfl, h₁, h₂⟩ := (ih r).mp h
        exact ⟨a, ⟨e, r⟩ :: l₁, l₂, rfl, .step h₁, h₂⟩
      · rintro ⟨a, l₁, l₂, rfl, h₁, h₂⟩
        obtain ⟨r, l', rfl, h₁'⟩ := returns_op.mp h₁
        exact ⟨r, l' ++ l₂, rfl, (ih r).mpr ⟨a, l', l₂, rfl, h₁', h₂⟩⟩
  | panic msg =>
      rw [Prog.panic_bind]
      constructor
      · intro h
        exact absurd h not_returns_panic
      · rintro ⟨a, l₁, l₂, _, h₁, _⟩
        exact absurd h₁ not_returns_panic

/-- A path of a sequence ends in the first part, or goes through it. -/
theorem leads_bind {p : Prog E R α} {f : α → Prog E R β} {l : List (Act E R)} {q : Prog E R β}
    (h : Leads (p >>= f) l q) :
    (∃ p', q = p' >>= f ∧ Leads p l p') ∨
      ∃ a l₁ l₂, l = l₁ ++ l₂ ∧ Returns p l₁ a ∧ Leads (f a) l₂ q := by
  induction p generalizing l with
  | pure a => exact .inr ⟨a, [], l, rfl, .refl _, h⟩
  | op e k ih =>
      rcases leads_op.mp h with ⟨rfl, rfl⟩ | ⟨r, l', rfl, hrest⟩
      · exact .inl ⟨.op e k, rfl, .refl _⟩
      · rcases ih r hrest with ⟨p', rfl, hp⟩ | ⟨a, l₁, l₂, rfl, h₁, h₂⟩
        · exact .inl ⟨p', rfl, .step hp⟩
        · exact .inr ⟨a, ⟨e, r⟩ :: l₁, l₂, rfl, .step h₁, h₂⟩
  | panic msg =>
      cases h
      exact .inl ⟨.panic msg, rfl, .refl _⟩

/-- The program `p` may, for some replies, come to perform the effect `e`. -/
def Issues (p : Prog E R α) (e : E) : Prop := ∃ l k, Leads p l (.op e k)

/-! ### Protocols -/

/-- An automaton over effects and replies; `allowed m e` says that the effect `e` may be
performed in state `m`, and `mayPanic m` that the program may panic there. -/
structure Protocol (E : Type) (R : E → Type) where
  State : Type
  next : State → (e : E) → R e → State
  allowed : State → E → Prop
  mayPanic : State → Prop

namespace Protocol

variable (P : Protocol E R)

/-- The state reached from `m` by the effects and replies `l`. -/
def after (m : P.State) (l : List (Act E R)) : P.State :=
  l.foldl (fun m a => P.next m a.effect a.reply) m

@[simp] theorem after_nil (m : P.State) : P.after m [] = m := rfl

@[simp] theorem after_cons (m : P.State) (a : Act E R) (l : List (Act E R)) :
    P.after m (a :: l) = P.after (P.next m a.effect a.reply) l := rfl

theorem after_append (m : P.State) (l₁ l₂ : List (Act E R)) :
    P.after m (l₁ ++ l₂) = P.after (P.after m l₁) l₂ := List.foldl_append

/-- Every effect of `l` is allowed in the state in which it is performed. -/
def Obeys : P.State → List (Act E R) → Prop
  | _, [] => True
  | m, a :: l => P.allowed m a.effect ∧ Obeys (P.next m a.effect a.reply) l

theorem Obeys.append {m : P.State} {l₁ l₂ : List (Act E R)} (h : P.Obeys m (l₁ ++ l₂)) :
    P.Obeys m l₁ ∧ P.Obeys (P.after m l₁) l₂ := by
  induction l₁ generalizing m with
  | nil => exact ⟨trivial, h⟩
  | cons a l₁ ih =>
      obtain ⟨ha, h⟩ := h
      obtain ⟨h₁, h₂⟩ := ih h
      exact ⟨⟨ha, h₁⟩, h₂⟩

end Protocol

/-- `p`, started in state `m` of the protocol, performs only allowed effects, and any value
it ends with is related by `Q` to the state it ends in. -/
def Follows (P : Protocol E R) (Q : α → P.State → Prop) : P.State → Prog E R α → Prop
  | m, .pure a => Q a m
  | m, .op e k => P.allowed m e ∧ ∀ r, Follows P Q (P.next m e r) (k r)
  | m, .panic _ => P.mayPanic m

section follows

variable {P : Protocol E R} {Q : α → P.State → Prop} {m : P.State}

theorem Follows.mono {Q' : α → P.State → Prop} (h : ∀ a m, Q a m → Q' a m) {p : Prog E R α}
    (hp : Follows P Q m p) : Follows P Q' m p := by
  induction p generalizing m with
  | pure a => exact h a m hp
  | op e k ih => exact ⟨hp.1, fun r => ih r (hp.2 r)⟩
  | panic msg => exact hp

/-- The rule of sequential composition. -/
theorem Follows.bind {Q' : β → P.State → Prop} {p : Prog E R α} {f : α → Prog E R β}
    (hp : Follows P Q m p) (hf : ∀ a m, Q a m → Follows P Q' m (f a)) :
    Follows P Q' m (p >>= f) := by
  induction p generalizing m with
  | pure a => exact hf a m hp
  | op e k ih => exact ⟨hp.1, fun r => ih r (hp.2 r)⟩
  | panic msg => exact hp

theorem follows_bind_iff {Q' : β → P.State → Prop} {p : Prog E R α} {f : α → Prog E R β} :
    Follows P Q' m (p >>= f) ↔ Follows P (fun a m' => Follows P Q' m' (f a)) m p := by
  induction p generalizing m with
  | pure a => exact Iff.rfl
  | op e k ih =>
      constructor
      · intro h
        exact ⟨h.1, fun r => (ih r).mp (h.2 r)⟩
      · intro h
        exact ⟨h.1, fun r => (ih r).mpr (h.2 r)⟩
  | panic msg => exact Iff.rfl

/-- A program that may not panic ends with a value, if every effect has a reply. -/
theorem Follows.exists_value (hreply : ∀ e, Nonempty (R e)) (hpanic : ∀ m, ¬ P.mayPanic m)
    {p : Prog E R α} (hp : Follows P Q m p) : ∃ a m', Q a m' := by
  induction p generalizing m with
  | pure a => exact ⟨a, m, hp⟩
  | op e k ih =>
      obtain ⟨r⟩ := hreply e
      exact ih r (hp.2 r)
  | panic msg => exact absurd hp (hpanic m)

theorem Follows.and_returns {S : α → Prop} {p : Prog E R α} (hp : Follows P Q m p)
    (h : ∀ l a, Returns p l a → S a) : Follows P (fun a m' => Q a m' ∧ S a) m p := by
  induction p generalizing m with
  | pure a => exact ⟨hp, h [] a (.refl _)⟩
  | op e k ih => exact ⟨hp.1, fun r => ih r (hp.2 r) fun l a hr => h (⟨e, r⟩ :: l) a (.step hr)⟩
  | panic msg => exact hp

/-- A program that follows a protocol does so at every point of every path. -/
theorem Follows.leads {p q : Prog E R α} {l : List (Act E R)} (hp : Follows P Q m p)
    (h : Leads p l q) : P.Obeys m l ∧ Follows P Q (P.after m l) q := by
  induction h generalizing m with
  | refl p => exact ⟨trivial, hp⟩
  | step _ ih =>
      obtain ⟨ho, hq⟩ := ih (hp.2 _)
      exact ⟨⟨hp.1, ho⟩, hq⟩

end follows

/-- From every state in `I` the program follows the protocol, and it ends in `I` again. -/
def Keeps (P : Protocol E R) (I : P.State → Prop) (p : Prog E R α) : Prop :=
  ∀ m, I m → Follows P (fun _ => I) m p

section keeps

variable {P : Protocol E R} {I : P.State → Prop}

theorem keeps_pure (a : α) : Keeps P I (pure a : Prog E R α) := fun _ h => h

theorem Keeps.bind {p : Prog E R α} {f : α → Prog E R β} (hp : Keeps P I p)
    (hf : ∀ a, Keeps P I (f a)) : Keeps P I (p >>= f) :=
  fun m h => (hp m h).bind fun a m' h' => hf a m' h'

end keeps

/-! ### Programs with few effects -/

/-- The program performs only effects of `A`. -/
def Only (A : E → Prop) : Prog E R α → Prop
  | .pure _ => True
  | .op e k => A e ∧ ∀ r, Only A (k r)
  | .panic _ => True

section only

variable {A : E → Prop}

theorem Only.mono {B : E → Prop} (h : ∀ e, A e → B e) {p : Prog E R α} (hp : Only A p) :
    Only B p := by
  induction p with
  | pure a => trivial
  | op e k ih => exact ⟨h e hp.1, fun r => ih r (hp.2 r)⟩
  | panic msg => trivial

theorem Only.bind {p : Prog E R α} {f : α → Prog E R β} (hp : Only A p) (hf : ∀ a, Only A (f a)) :
    Only A (p >>= f) := by
  induction p with
  | pure a => exact hf a
  | op e k ih => exact ⟨hp.1, fun r => ih r (hp.2 r)⟩
  | panic msg => trivial

theorem Only.leads {p q : Prog E R α} {l : List (Act E R)} (hp : Only A p) (h : Leads p l q) :
    (∀ a ∈ l, A a.effect) ∧ Only A q := by
  induction h with
  | refl p => exact ⟨fun a ha => absurd ha List.not_mem_nil, hp⟩
  | step _ ih =>
      obtain ⟨hl, hq⟩ := ih (hp.2 _)
      refine ⟨fun a ha => ?_, hq⟩
      rcases List.mem_cons.mp ha with rfl | ha
      · exact hp.1
      · exact hl a ha

theorem Only.issues {p : Prog E R α} (hp : Only A p) {e : E} (h : Issues p e) : A e := by
  obtain ⟨l, k, hl⟩ := h
  exact (hp.leads hl).2.1

theorem Only.follows {P : Protocol E R} {m : P.State}
    (hm : ∀ e, A e → P.allowed m e ∧ ∀ r, P.next m e r = m) (hpanic : P.mayPanic m)
    {p : Prog E R α} (hp : Only A p) : Follows P (fun _ m' => m' = m) m p := by
  induction p with
  | pure a => exact rfl
  | op e k ih =>
      obtain ⟨hall, hnext⟩ := hm e hp.1
      refine ⟨hall, fun r => ?_⟩
      rw [hnext r]
      exact ih r (hp.2 r)
  | panic msg => exact hpanic

theorem Follows.only {P : Protocol E R} {Q : α → P.State → Prop} {m : P.State}
    (hA : ∀ m e, P.allowed m e → A e) {p : Prog E R α} (hp : Follows P Q m p) : Only A p := by
  induction p generalizing m with
  | pure a => trivial
  | op e k ih => exact ⟨hA m e hp.1, fun r => ih r (hp.2 r)⟩
  | panic msg => trivial

end only

/-! ### Programs that do not panic -/

/-- No path of the program panics. -/
def Calm (p : Prog E R α) : Prop := ∀ l msg, ¬ Leads p l (.panic msg)

/-- Everything is allowed but to panic. -/
abbrev calmProtocol (E : Type) (R : E → Type) : Protocol E R where
  State := Unit
  next _ _ _ := ()
  allowed _ _ := True
  mayPanic _ := False

section calm

variable {p : Prog E R α} {f : α → Prog E R β}

theorem calm_iff : Calm p ↔ Follows (calmProtocol E R) (fun _ _ => True) () p := by
  constructor
  · intro h
    induction p with
    | pure a => trivial
    | op e k ih => exact ⟨trivial, fun r => ih r fun l msg hl => h (⟨e, r⟩ :: l) msg (.step hl)⟩
    | panic msg => exact h [] msg (.refl _)
  · intro h l msg hl
    exact (h.leads hl).2

theorem calm_pure (a : α) : Calm (pure a : Prog E R α) := calm_iff.mpr trivial

theorem calm_op {e : E} {k : R e → Prog E R α} (h : ∀ r, Calm (k r)) : Calm (.op e k) :=
  calm_iff.mpr ⟨trivial, fun r => calm_iff.mp (h r)⟩

theorem Calm.bind (hp : Calm p) (hf : ∀ a, Calm (f a)) : Calm (p >>= f) :=
  calm_iff.mpr ((calm_iff.mp hp).bind fun a _ _ => calm_iff.mp (hf a))

theorem Calm.first (h : Calm (p >>= f)) : Calm p :=
  calm_iff.mpr ((follows_bind_iff.mp (calm_iff.mp h)).mono fun _ _ _ => trivial)

/-- What comes after a calm part is reached, if every effect has a reply. -/
theorem Calm.rest (hreply : ∀ e, Nonempty (R e)) {q : Prog E R β} (h : Calm (p >>= fun _ => q)) :
    Calm q := by
  obtain ⟨a, _, ha⟩ := (follows_bind_iff.mp (calm_iff.mp h)).exists_value hreply
    fun _ hpanic => hpanic
  exact calm_iff.mpr ha

end calm

end Effects
