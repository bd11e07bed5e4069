import NearFetch.NonceProtocol
import NearFetch.TicketCounter

/-! # The history of the nonce cache

What the trace of a run says about the nonce cache.  Seen from one key it is a list of labels of
the ticket counter (`labels`): inserting the entry opens it, an increment draws the next
ticket, removing the entry closes it.  Seen from one task it is a list of draws and returns,
and the protocol alone decides what a task does between them: `pending_drawn` finds the draw
behind a nonce in hand, `fate` says what becomes of a draw, and `replied_after` what the task
did before it inserts an entry. -/

namespace NearFetch

open Effects FifoLock TicketCounter

/-! ### Reading the trace -/

/-- What an effect does to the entry of `key`. -/
def entryLabel (key : CacheKey) : Act Op Op.Reply → Option Label
  | ⟨.nonceInsert k v, _⟩ => if k = key then some (.opened v) else none
  | ⟨.nonceFetchAdd k, n⟩ => if k = key then some (.drew (wrapSucc n)) else none
  | ⟨.nonceRemove k, _⟩ => if k = key then some .closed else none
  | _ => none

/-- The nonce that a task draws by an effect, by inserting an entry or by incrementing one. -/
def drawnNonce : Act Op Op.Reply → Option (CacheKey × Nonce)
  | ⟨.nonceInsert key v, _⟩ => some (key, v)
  | ⟨.nonceFetchAdd key, n⟩ => some (key, wrapSucc n)
  | _ => none

/-- The effect is the return of a call of `fetch_nonce`. -/
def isReturn : Act Op Op.Reply → Bool
  | ⟨.nonceReturned _ _, _⟩ => true
  | _ => false

/-- Neither a draw nor a return. -/
def Quiet (l : List (Act Op Op.Reply)) : Prop := ∀ a ∈ l, drawnNonce a = none ∧ isReturn a = false

theorem ticket_entryLabel {key : CacheKey} {a : Act Op Op.Reply} {v : Nonce} :
    (entryLabel key a).bind Label.ticket = some v ↔ drawnNonce a = some (key, v) := by
  obtain ⟨e, r⟩ := a
  cases e with
  | nonceInsert k u =>
      by_cases hk : k = key
      · simp [entryLabel, drawnNonce, hk, Label.ticket]
      · simp [entryLabel, drawnNonce, hk]
  | nonceFetchAdd k =>
      by_cases hk : k = key
      · simp [entryLabel, drawnNonce, hk, Label.ticket]
      · simp [entryLabel, drawnNonce, hk]
  | nonceRemove k =>
      by_cases hk : k = key
      · simp [entryLabel, drawnNonce, hk, Label.ticket]
      · simp [entryLabel, drawnNonce, hk]
  | _ => simp [entryLabel, drawnNonce]

section traces

variable {ι : Type}

/-- What happened to the entry of `key`. -/
def labels (key : CacheKey) (tr : List (Event ι Op Op.Reply)) : List Label :=
  tr.filterMap fun ev => entryLabel key ev.act

@[simp] theorem labels_nil (key : CacheKey) :
    labels key ([] : List (Event ι Op Op.Reply)) = [] := rfl

theorem labels_append (key : CacheKey) (tr tr' : List (Event ι Op Op.Reply)) :
    labels key (tr ++ tr') = labels key tr ++ labels key tr' := List.filterMap_append

theorem labels_cons (key : CacheKey) (ev : Event ι Op Op.Reply) (tr : List (Event ι Op Op.Reply)) :
    labels key (ev :: tr) = (entryLabel key ev.act).toList ++ labels key tr := by
  unfold labels
  rw [List.filterMap_cons]
  cases entryLabel key ev.act <;> rfl

theorem labels_insert (key : CacheKey) (t : ι) (v : Nonce) (tr : List (Event ι Op Op.Reply)) :
    labels key (⟨t, ⟨.nonceInsert key v, ()⟩⟩ :: tr) = .opened v :: labels key tr := by
  simp [labels_cons, entryLabel]

theorem labels_eq_append {key : CacheKey} {tr : List (Event ι Op Op.Reply)} {a : Label}
    {l₁ l₂ : List Label} (h : labels key tr = l₁ ++ a :: l₂) :
    ∃ tr₁ ev tr₂, tr = tr₁ ++ ev :: tr₂ ∧ labels key tr₁ = l₁ ∧
      entryLabel key ev.act = some a ∧ labels key tr₂ = l₂ := by
  obtain ⟨tr₁, rest, rfl, h₁, hrest⟩ := List.filterMap_eq_append_iff.mp h
  obtain ⟨skip, ev, tr₂, rfl, hskip, hev, h₂⟩ := List.filterMap_eq_cons_iff.mp hrest
  refine ⟨tr₁ ++ skip, ev, tr₂, by simp, ?_, hev, h₂⟩
  rw [labels_append, labels, labels, h₁, List.filterMap_eq_nil_iff.mpr hskip, List.append_nil]

theorem entryLabel_eq_some {key : CacheKey} {a : Act Op Op.Reply} {l : Label}
    (h : entryLabel key a = some l) :
    (∃ v, a = ⟨.nonceInsert key v, ()⟩ ∧ l = .opened v) ∨
      (∃ n, a = ⟨.nonceFetchAdd key, n⟩ ∧ l = .drew (wrapSucc n)) ∨
      a = ⟨.nonceRemove key, ()⟩ ∧ l = .closed := by
  obtain ⟨e, r⟩ := a
  cases e with
  | nonceInsert k v =>
      obtain ⟨rfl, hl⟩ := Option.ite_none_right_eq_some.mp h
      exact .inl ⟨v, rfl, (Option.some.inj hl).symm⟩
  | nonceFetchAdd k =>
      obtain ⟨rfl, hl⟩ := Option.ite_none_right_eq_some.mp h
      exact .inr (.inl ⟨r, rfl, (Option.some.inj hl).symm⟩)
  | nonceRemove k =>
      obtain ⟨rfl, hl⟩ := Option.ite_none_right_eq_some.mp h
      exact .inr (.inr ⟨rfl, (Option.some.inj hl).symm⟩)
  | _ => cases h

theorem entryLabel_opened {key : CacheKey} {ev : Event ι Op Op.Reply} {v : Nonce}
    (h : entryLabel key ev.act = some (.opened v)) : ∃ t, ev = ⟨t, ⟨.nonceInsert key v, ()⟩⟩ := by
  obtain ⟨t, a⟩ := ev
  rcases entryLabel_eq_some h with ⟨u, rfl, hl⟩ | ⟨n, -, hl⟩ | ⟨-, hl⟩
  · cases hl
    exact ⟨t, rfl⟩
  · cases hl
  · cases hl

theorem entryLabel_closed {key : CacheKey} {ev : Event ι Op Op.Reply}
    (h : entryLabel key ev.act = some .closed) : ∃ t, ev = ⟨t, ⟨.nonceRemove key, ()⟩⟩ := by
  obtain ⟨t, a⟩ := ev
  rcases entryLabel_eq_some h with ⟨u, -, hl⟩ | ⟨n, -, hl⟩ | ⟨rfl, -⟩
  · cases hl
  · cases hl
  · exact ⟨t, rfl⟩

/-- Adding one to the nonce that the effect replied with does not wrap. -/
def fits : Act Op Op.Reply → Bool
  | ⟨.nonceFetchAdd _, n⟩ => decide (n + 1 < 2 ^ 64)
  | ⟨.rpc (.query _ _), reply⟩ => match reportedNonce reply with
    | some b => decide (b + 1 < 2 ^ 64)
    | none => true
  | _ => true

/-- No addition of one to a nonce wraps in the run. -/
def NoOverflow (tr : List (Event ι Op Op.Reply)) : Prop := ∀ ev ∈ tr, fits ev.act = true

theorem NoOverflow.prefix {tr tr' : List (Event ι Op Op.Reply)} (h : NoOverflow (tr ++ tr')) :
    NoOverflow tr := fun ev hev => h ev (List.mem_append_left _ hev)

theorem NoOverflow.draw {tr : List (Event ι Op Op.Reply)} {t : ι} {key : CacheKey} {n : Nonce}
    (h : NoOverflow tr) (hm : ⟨t, ⟨.nonceFetchAdd key, n⟩⟩ ∈ tr) : n + 1 < 2 ^ 64 := by
  have hfits := h _ hm
  rw [fits, decide_eq_true_iff] at hfits
  exact hfits

theorem NoOverflow.report {tr : List (Event ι Op Op.Reply)} {t : ι} {reference : BlockReference}
    {request : QueryRequest} {reply : Except (JsonRpcError RpcQueryError) RpcQueryResponse}
    {b : Nonce} (h : NoOverflow tr)
    (hm : ⟨t, ⟨.rpc (.query reference request), reply⟩⟩ ∈ tr)
    (hb : reportedNonce reply = some b) : b + 1 < 2 ^ 64 := by
  have hfits := h _ hm
  simp only [fits, hb] at hfits
  rw [decide_eq_true_iff] at hfits
  exact hfits

theorem labels_concat (key : CacheKey) (tr : List (Event ι Op Op.Reply))
    (ev : Event ι Op Op.Reply) :
    labels key (tr ++ [ev]) = labels key tr ++ (entryLabel key ev.act).toList := by
  rw [labels_append, labels_cons]
  simp [labels]

end traces

/-! ### What a task does with its draw -/

namespace Phase

variable {p : Phase} {e : Op} {r : e.Reply} {key : CacheKey}

theorem holds_of_label (ha : p.allowed e) (hl : entryLabel key ⟨e, r⟩ ≠ none) :
    ∃ m, p.standing = .holds m := by
  cases e with
  | nonceInsert k v =>
      obtain ⟨b, rfl, -⟩ := allowed_nonceInsert ha
      exact ⟨_, rfl⟩
  | nonceFetchAdd k =>
      obtain ⟨m, rfl⟩ := allowed_nonceFetchAdd ha
      exact ⟨_, rfl⟩
  | nonceRemove k =>
      obtain rfl := allowed_nonceRemove ha
      exact ⟨_, rfl⟩
  | _ => exact absurd rfl hl

theorem next_replied {b : Nonce} (ha : p.allowed e) (h : p.next e r = .replied key b) :
    ∃ reference reply, reportedNonce reply = some b ∧
      (⟨e, r⟩ : Act Op Op.Reply) =
        ⟨.rpc (.query reference (.viewAccessKey key.1 key.2)), reply⟩ := by
  cases p with
  | missing m k =>
      cases e with
      | guardDrop => cases h
      | rpc call =>
          cases call with
          | query reference request =>
              cases request with
              | viewAccessKey accountId publicKey =>
                  obtain ⟨rfl, rfl⟩ := ha
                  simp only [next] at h
                  cases hr : reportedNonce r with
                  | none => simp [hr] at h
                  | some b' =>
                      simp only [hr, replied.injEq] at h
                      obtain ⟨rfl, rfl⟩ := h
                      exact ⟨reference, r, hr, rfl⟩
              | _ => cases ha
          | _ => cases ha
      | _ => cases ha
  | holding m =>
      cases e with
      | nonceGet k => cases r <;> cases h
      | guardDrop => cases h
      | nonceRemove k => cases h
      | _ => cases ha
  | drawn m k v =>
      cases e with
      | rpc call => cases call <;> first | (cases ha; done) | (cases r <;> cases h)
      | _ => cases ha
  | _ => cases e <;> first | (cases ha; done) | cases h

end Phase

/-- A phase with a nonce in hand comes from a draw or keeps that nonce quietly. -/
theorem Phase.pending_next {p : Phase} {e : Op} {r : e.Reply} {x : CacheKey × Nonce}
    (ha : p.allowed e) (h : (p.next e r).pending = some x) :
    drawnNonce ⟨e, r⟩ = some x ∨
      (p.pending = some x ∧ drawnNonce ⟨e, r⟩ = none ∧ isReturn ⟨e, r⟩ = false) := by
  cases p with
  | found m key =>
      cases e with
      | nonceFetchAdd k =>
          obtain rfl : k = key := ha
          exact .inl h
      | _ => cases ha
  | replied key b =>
      cases e with
      | nonceInsert k v =>
          obtain ⟨rfl, -⟩ := ha
          exact .inl h
      | _ => cases ha
  | drawn m key v =>
      cases e with
      | rpc call =>
          cases call with
          | block reference =>
              cases r with
              | error err => cases h
              | ok block => exact .inr ⟨h, rfl, rfl⟩
          | _ => cases ha
      | _ => cases ha
  | ready m key v =>
      cases e with
      | guardDrop => exact .inr ⟨h, rfl, rfl⟩
      | _ => cases ha
  | missing m key =>
      cases e with
      | guardDrop => cases h
      | rpc call =>
          cases call with
          | query reference request =>
              simp only [next] at h
              cases hr : reportedNonce r <;> simp [hr, pending] at h
          | _ => cases ha
      | _ => cases ha
  | holding m =>
      cases e with
      | nonceGet k => cases r <;> cases h
      | guardDrop => cases h
      | nonceRemove k => cases h
      | _ => cases ha
  | idle => cases e <;> first | (cases ha; done) | cases h
  | queued m => cases e <;> first | (cases ha; done) | cases h
  | failed m key => cases e <;> first | (cases ha; done) | cases h
  | returning key v => cases e <;> first | (cases ha; done) | cases h

/-- What a task does between a draw and the return. -/
def Op.isFinish : Op → Bool
  | .guardDrop => true
  | .rpc (.block _) => true
  | _ => false

theorem quiet_of_isFinish {a : Act Op Op.Reply} (h : a.effect.isFinish = true) :
    drawnNonce a = none ∧ isReturn a = false := by
  obtain ⟨e, r⟩ := a
  cases e <;> first | exact ⟨rfl, rfl⟩ | cases h

theorem Phase.isFinish_of_pending {p : Phase} {e : Op} {r : e.Reply} {x : CacheKey × Nonce}
    (hp : p.pending = some x) (ha : p.allowed e) (h : (p.next e r).pending = some x) :
    e.isFinish = true := by
  cases p with
  | drawn m key v =>
      cases e with
      | rpc call => cases call <;> first | rfl | cases ha
      | _ => cases ha
  | ready m key v => cases e <;> first | rfl | cases ha
  | returning key v => cases e <;> first | (cases ha; done) | cases h
  | _ => cases hp

/-- A nonce in hand was drawn, and since then the task was finishing the call. -/
theorem drawn_behind {l : List (Act Op Op.Reply)} {x : CacheKey × Nonce}
    (ho : nonceProtocol.Obeys .idle l) (h : (nonceProtocol.after .idle l).pending = some x) :
    ∃ l₁ a l₂, l = l₁ ++ a :: l₂ ∧ drawnNonce a = some x ∧ ∀ b ∈ l₂, b.effect.isFinish = true := by
  induction l using List.reverseRecOn with
  | nil => cases h
  | append_singleton l a ih =>
      obtain ⟨ho, ha, -⟩ := ho.append
      rw [Protocol.after_append] at h
      rcases Phase.pending_next ha h with hdraw | ⟨hpend, -⟩
      · exact ⟨l, a, [], rfl, hdraw, fun b hb => absurd hb List.not_mem_nil⟩
      · obtain ⟨l₁, b, l₂, rfl, hb, hl₂⟩ := ih ho hpend
        refine ⟨l₁, b, l₂ ++ [a], by simp, hb, ?_⟩
        intro c hc
        rcases List.mem_append.mp hc with hc | hc
        · exact hl₂ c hc
        · rw [List.mem_singleton.mp hc]
          exact Phase.isFinish_of_pending hpend ha h

theorem pending_drawn {l : List (Act Op Op.Reply)} {x : CacheKey × Nonce}
    (ho : nonceProtocol.Obeys .idle l) (h : (nonceProtocol.after .idle l).pending = some x) :
    ∃ l₁ a l₂, l = l₁ ++ a :: l₂ ∧ drawnNonce a = some x ∧ Quiet l₂ := by
  obtain ⟨l₁, a, l₂, hl, ha, hl₂⟩ := drawn_behind ho h
  exact ⟨l₁, a, l₂, hl, ha, fun b hb => quiet_of_isFinish (hl₂ b hb)⟩

theorem Phase.pending_of_draw {p : Phase} {e : Op} {r : e.Reply} {x : CacheKey × Nonce}
    (ha : p.allowed e) (h : drawnNonce ⟨e, r⟩ = some x) : (p.next e r).pending = some x := by
  cases e with
  | nonceInsert k v =>
      obtain ⟨b, rfl, -⟩ := allowed_nonceInsert ha
      exact h
  | nonceFetchAdd k =>
      obtain ⟨m, rfl⟩ := allowed_nonceFetchAdd ha
      exact h
  | _ => cases h

/-- A task with a nonce in hand returns it, learns that `view_block` failed, or keeps it. -/
theorem Phase.pending_step {p : Phase} {e : Op} (r : e.Reply) {key : CacheKey} {v : Nonce}
    (hp : p.pending = some (key, v)) (ha : p.allowed e) :
    (∃ result, (⟨e, r⟩ : Act Op Op.Reply) = ⟨.nonceReturned key result, ()⟩ ∧
        returnedNonce result = some v) ∨
      (∃ reference err, (⟨e, r⟩ : Act Op Op.Reply) = ⟨.rpc (.block reference), .error err⟩) ∨
      ((p.next e r).pending = some (key, v) ∧ drawnNonce ⟨e, r⟩ = none ∧
        isReturn ⟨e, r⟩ = false) := by
  cases p with
  | drawn m k u =>
      cases e with
      | rpc call =>
          cases call with
          | block reference =>
              cases r with
              | error err => exact .inr (.inl ⟨reference, err, rfl⟩)
              | ok block => exact .inr (.inr ⟨hp, rfl, rfl⟩)
          | _ => cases ha
      | _ => cases ha
  | ready m k u =>
      cases e with
      | guardDrop => exact .inr (.inr ⟨hp, rfl, rfl⟩)
      | _ => cases ha
  | returning k u =>
      cases e with
      | nonceReturned k' result =>
          obtain ⟨rfl, hresult⟩ := ha
          cases u with
          | none => cases hp
          | some u =>
              cases hp
              exact .inl ⟨result, rfl, hresult⟩
      | _ => cases ha
  | _ => cases hp

/-- What becomes of a nonce in hand. -/
theorem fate {l : List (Act Op Op.Reply)} {p : Phase} {key : CacheKey} {v : Nonce}
    (hp : p.pending = some (key, v)) (ho : nonceProtocol.Obeys p l) :
    (∃ l₁ result l₂, l = l₁ ++ ⟨.nonceReturned key result, ()⟩ :: l₂ ∧ Quiet l₁ ∧
        returnedNonce result = some v) ∨
      (∃ l₁ reference err l₂, l = l₁ ++ ⟨.rpc (.block reference), .error err⟩ :: l₂ ∧ Quiet l₁) ∨
      (Quiet l ∧ (nonceProtocol.after p l).pending = some (key, v)) := by
  have hnil : Quiet [] := fun b hb => absurd hb List.not_mem_nil
  induction l generalizing p with
  | nil => exact .inr (.inr ⟨hnil, hp⟩)
  | cons a l ih =>
      obtain ⟨ha, ho⟩ := ho
      rcases Phase.pending_step a.reply hp ha with
        ⟨result, hact, hv⟩ | ⟨reference, err, hact⟩ | ⟨hp', hquiet⟩
      · exact .inl ⟨[], result, l, by rw [← hact]; rfl, hnil, hv⟩
      · exact .inr (.inl ⟨[], reference, err, l, by rw [← hact]; rfl, hnil⟩)
      · have hcons : ∀ {l'}, Quiet l' → Quiet (a :: l') := by
          intro l' hl' b hb
          rcases List.mem_cons.mp hb with rfl | hb
          · exact hquiet
          · exact hl' b hb
        rcases ih hp' ho with ⟨l₁, result, l₂, rfl, hq, hv⟩ | ⟨l₁, reference, err, l₂, rfl, hq⟩ |
          ⟨hq, hafter⟩
        · exact .inl ⟨a :: l₁, result, l₂, rfl, hcons hq, hv⟩
        · exact .inr (.inl ⟨a :: l₁, reference, err, l₂, rfl, hcons hq⟩)
        · exact .inr (.inr ⟨hcons hq, hafter⟩)

/-- What a task that has an access-key reply in hand did last. -/
theorem replied_after {l : List (Act Op Op.Reply)} {key : CacheKey} {b : Nonce}
    (ho : nonceProtocol.Obeys .idle l) (h : nonceProtocol.after .idle l = .replied key b) :
    ∃ l' reference reply,
      l = l' ++ [⟨.rpc (.query reference (.viewAccessKey key.1 key.2)), reply⟩] ∧
      reportedNonce reply = some b := by
  rcases List.eq_nil_or_concat l with rfl | ⟨l, a, rfl⟩
  · cases h
  · rw [List.concat_eq_append] at ho h ⊢
    rw [Protocol.after_append] at h
    obtain ⟨-, ha, -⟩ := ho.append
    obtain ⟨reference, reply, hb, hact⟩ := Phase.next_replied ha h
    exact ⟨l, reference, reply, by rw [← hact], hb⟩

end NearFetch
