import Mathlib.Data.List.Forall2
import NearFetch.Interleaving

/-! # What a thread observes of a shared state that changes

A thread that asks about a shared state gets each answer in the state of that moment.  `Run.met` lists the
states in which a thread performed its effects, in order: states that the run was in, one for each act of
the thread.

`inOrder body is` performs one program after another and returns their results.  Whatever was met on a path
of the whole is divided among the parts (`met_inOrder`), so a specification of each part by the states that
it met gives one of the whole. -/

namespace Effects

variable {ι S A E : Type} {R : E → Type} {α I : Type} {Out : I → Type}

/-! ### The states that a thread met -/

section met

variable [DecidableEq ι] (M : Machine ι S A E R)

/-- Thread `t` could perform the act in the state. -/
def Machine.Allows (t : ι) (a : Act E R) (s : S) : Prop :=
  ∃ ans s', M.perform t a.effect ans s = some (a.reply, s')

/-- The run was in these states before the acts of thread `t`, in this order. -/
def Met (c₀ : Config ι S E R α) (tr : List (Event ι E R)) (t : ι) (ss : List S) : Prop :=
  ∀ n s, ss[n]? = some s →
    ∃ pre c, pre <+: tr ∧ Run M c₀ pre c ∧ c.shared = s ∧ (acts t pre).length = n

variable {M} {c₀ c : Config ι S E R α} {tr tr' : List (Event ι E R)} {t : ι} {ss : List S} {s : S}

theorem Met.mono (h : Met M c₀ tr t ss) (htr : tr <+: tr') : Met M c₀ tr' t ss := by
  intro n s hs
  obtain ⟨pre, c, hpre, hrest⟩ := h n s hs
  exact ⟨pre, c, hpre.trans htr, hrest⟩

theorem Met.exists_run (h : Met M c₀ tr t ss) (hs : s ∈ ss) :
    ∃ pre c, pre <+: tr ∧ Run M c₀ pre c ∧ c.shared = s := by
  obtain ⟨n, hn⟩ := List.mem_iff_getElem?.mp hs
  obtain ⟨pre, c, hpre, hrun, hshared, -⟩ := h n s hn
  exact ⟨pre, c, hpre, hrun, hshared⟩

theorem Met.snoc (h : Met M c₀ tr t ss) (hrun : Run M c₀ tr c)
    (hlen : (acts t tr).length = ss.length) : Met M c₀ tr t (ss ++ [c.shared]) := by
  intro n s hs
  by_cases hn : n < ss.length
  · rw [List.getElem?_append_left hn] at hs
    exact h n s hs
  · have hn' : n = ss.length := by
      have hlt := (List.getElem?_eq_some_iff.mp hs).1
      rw [List.length_append, List.length_singleton] at hlt
      omega
    subst hn'
    rw [List.getElem?_concat_length] at hs
    exact ⟨tr, c, List.prefix_refl tr, hrun, Option.some.inj hs, hlen⟩

/-- Each act of a thread was performed in a state of the run, and these states follow one another. -/
theorem Run.met (h : Run M c₀ tr c) (t : ι) :
    ∃ ss, List.Forall₂ (M.Allows t) (acts t tr) ss ∧ Met M c₀ tr t ss := by
  induction h with
  | start => exact ⟨[], .nil, fun n s hs => by simp at hs⟩
  | @act tr c u e k ans r s h hu hp ih =>
      obtain ⟨ss, hss, hmet⟩ := ih
      by_cases htu : u = t
      · subst htu
        have hact : acts u (tr ++ [⟨u, ⟨e, r⟩⟩]) = acts u tr ++ [⟨e, r⟩] := by
          rw [acts_append, acts_cons_self, acts_nil]
        refine ⟨ss ++ [c.shared], ?_, (hmet.snoc h hss.length_eq).mono (List.prefix_append _ _)⟩
        rw [hact]
        exact List.rel_append hss (.cons ⟨ans, s, hp⟩ .nil)
      · have hact : acts t (tr ++ [⟨u, ⟨e, r⟩⟩]) = acts t tr := by
          rw [acts_append, acts_cons_ne htu, acts_nil, List.append_nil]
        rw [hact]
        exact ⟨ss, hss, hmet.mono (List.prefix_append _ _)⟩
  | drop _ _ _ ih => exact ih
  | ambient a _ ih => exact ih

end met

/-! ### One program after another -/

theorem met_append {P : Act E R → S → Prop} {l₁ l₂ : List (Act E R)} {ss : List S}
    (h : List.Forall₂ P (l₁ ++ l₂) ss) :
    ∃ ss₁ ss₂, ss = ss₁ ++ ss₂ ∧ List.Forall₂ P l₁ ss₁ ∧ List.Forall₂ P l₂ ss₂ :=
  ⟨ss.take l₁.length, ss.drop l₁.length, (List.take_append_drop _ _).symm,
    (List.forall₂_take_append _ _ _ h.flip).flip, (List.forall₂_drop_append _ _ _ h.flip).flip⟩

/-- The programs `body i` in the order of the list, with their results. -/
def inOrder (body : (i : I) → Prog E R (Out i)) : List I → Prog E R (List (Sigma Out))
  | [] => pure []
  | i :: is => do
      let r ← body i
      let rs ← inOrder body is
      return ⟨i, r⟩ :: rs

/-- What the parts of a sequence met: the list of all that it met is the one of the parts, and each result
is that of a path of its part. -/
theorem met_inOrder {body : (i : I) → Prog E R (Out i)} {P : Act E R → S → Prop} {is : List I}
    {l : List (Act E R)} {rs : List (Sigma Out)} {ss : List S} (h : Returns (inOrder body is) l rs)
    (hs : List.Forall₂ P l ss) :
    ∃ parts : List (List S), parts.flatten = ss ∧ rs.map Sigma.fst = is ∧
      List.Forall₂ (fun r part => ∃ l', Returns (body r.1) l' r.2 ∧ List.Forall₂ P l' part)
        rs parts := by
  induction is generalizing l rs ss with
  | nil =>
      obtain ⟨rfl, rfl⟩ := returns_pure.mp h
      cases hs
      exact ⟨[], rfl, rfl, .nil⟩
  | cons i is ih =>
      obtain ⟨r, l₁, l₂, rfl, h₁, h⟩ := returns_bind.mp h
      obtain ⟨rs', l₂, l₃, rfl, h₂, h⟩ := returns_bind.mp h
      obtain ⟨rfl, rfl⟩ := returns_pure.mp h
      rw [List.append_nil] at hs
      obtain ⟨ss₁, ss₂, rfl, hs₁, hs₂⟩ := met_append hs
      obtain ⟨parts, rfl, his, hrs⟩ := ih h₂ hs₂
      exact ⟨ss₁ :: parts, rfl, by rw [List.map_cons, his], .cons ⟨l₁, h₁, hs₁⟩ hrs⟩

theorem met_of_mem {body : (i : I) → Prog E R (Out i)} {P : Act E R → S → Prop} {is : List I}
    {l : List (Act E R)} {rs : List (Sigma Out)} {ss : List S} (h : Returns (inOrder body is) l rs)
    (hs : List.Forall₂ P l ss) {r : Sigma Out} (hr : r ∈ rs) :
    ∃ l' part, part ⊆ ss ∧ Returns (body r.1) l' r.2 ∧ List.Forall₂ P l' part := by
  obtain ⟨parts, rfl, -, hparts⟩ := met_inOrder h hs
  obtain ⟨n, hn, rfl⟩ := List.getElem_of_mem hr
  have hn' : n < parts.length := by
    have hlen := hparts.length_eq
    omega
  obtain ⟨l', hreturns, hl'⟩ := List.Forall₂.get hparts hn hn'
  have hmem := List.get_mem parts ⟨n, hn'⟩
  exact ⟨l', parts.get ⟨n, hn'⟩, fun s hs => List.mem_flatten_of_mem hmem hs, hreturns, hl'⟩

end Effects
