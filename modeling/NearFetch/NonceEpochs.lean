import NearFetch.NonceLock
import NearFetch.NonceTrace

/-! # The epochs of a nonce

Seen from one key, a run of the client is a run of the ticket counter, and the entry is the
ticket drawn last (`Tracks`).  Each effect that the protocol allows keeps this (`tracks_act`): an
entry is inserted only where it is missing, because of what the task knows under its guard.
Since nobody else has a guard while a task queries the access key, the nonce that it inserts
is still fresh (`Fresh`). -/

namespace NearFetch

open Effects FifoLock TicketCounter

section invariant

variable {ι W A : Type}

/-- What happened to the entry of `key` is a run of the counter, and the entry is the ticket
drawn last. -/
def Tracks (key : CacheKey) (tr : List (Event ι Op Op.Reply)) (s : Shared ι W) : Prop :=
  ∃ st, run none (labels key tr) = some st ∧ s.nonces key = st.map Epoch.last

/-- Task `t` received the nonce `b` of the access key, and nothing happened to any entry since. -/
def Fresh (tr : List (Event ι Op Op.Reply)) (t : ι) (key : CacheKey) (b : Nonce) : Prop :=
  ∃ pre reference reply post,
    tr = pre ++ ⟨t, ⟨.rpc (.query reference (.viewAccessKey key.1 key.2)), reply⟩⟩ :: post ∧
    reportedNonce reply = some b ∧ ∀ k, labels k post = []

/-- What holds in every reachable state, of the trace, the phases and the shared state. -/
structure EpochInv (tr : List (Event ι Op Op.Reply)) (g : ι → Option Phase) (s : Shared ι W) :
    Prop where
  cache : CacheInv g s
  counter : NoOverflow tr → ∀ key, Tracks key tr s
  fresh : ∀ t key b, g t = some (.replied key b) → Fresh tr t key b

variable {w : ℕ} {ep : Endpoint W A} {tr : List (Event ι Op Op.Reply)} {g : ι → Option Phase}
  {s s' : Shared ι W} {t : ι} {p : Phase} {e : Op} {ans : Option e.Reply} {r : e.Reply}
  {key : CacheKey}

theorem labels_epoch {pre seg post : List (Event ι Op Op.Reply)} {t : ι} {v : Nonce}
    {st : Option Epoch}
    (h : run none (labels key (pre ++ ⟨t, ⟨.nonceInsert key v, ()⟩⟩ :: (seg ++ post))) = some st)
    (hc : .closed ∉ labels key seg) :
    (∀ u, .opened u ∉ labels key seg) ∧
      v :: tickets (labels key seg) = List.range' v (1 + (tickets (labels key seg)).length) := by
  rw [labels_append, labels_insert, labels_append, ← List.cons_append, ← List.append_assoc] at h
  obtain ⟨st', hst⟩ := run_prefix h
  obtain ⟨ep, -, hfirst, hdrawn, hopen⟩ := run_opened hst hc
  refine ⟨hopen, ?_⟩
  have hrange := ep.consecutive
  rw [hdrawn, hfirst, List.length_cons, Nat.add_comm] at hrange
  exact hrange

theorem labels_entry {pre seg : List (Event ι Op Op.Reply)} {t : ι} {v : Nonce} {s : Shared ι W}
    (h : Tracks key (pre ++ ⟨t, ⟨.nonceInsert key v, ()⟩⟩ :: seg) s)
    (hc : .closed ∉ labels key seg) :
    s.nonces key = (v :: tickets (labels key seg)).getLast? := by
  obtain ⟨st, hrun, hent⟩ := h
  rw [labels_append, labels_insert] at hrun
  obtain ⟨ep, rfl, -, hdrawn, -⟩ := run_opened hrun hc
  rw [hent, ← hdrawn, ep.getLast?_drawn]
  rfl

theorem labels_open {ep : Epoch} (h : run none (labels key tr) = some (some ep)) :
    ∃ pre t v seg, tr = pre ++ ⟨t, ⟨.nonceInsert key v, ()⟩⟩ :: seg ∧
      .closed ∉ labels key seg := by
  obtain ⟨l₁, l₂, hl, hc⟩ := open_since h
  obtain ⟨pre, ev, seg, rfl, -, hev, rfl⟩ := labels_eq_append hl
  obtain ⟨t, rfl⟩ := entryLabel_opened hev
  exact ⟨pre, t, ep.first, seg, rfl, hc⟩

theorem labels_incremented {pre post : List (Event ι Op Op.Reply)} {t : ι} {n : Nonce}
    {st : Option Epoch}
    (h : run none (labels key (pre ++ ⟨t, ⟨.nonceFetchAdd key, n⟩⟩ :: post)) = some st) :
    ∃ pre' u v seg, pre = pre' ++ ⟨u, ⟨.nonceInsert key v, ()⟩⟩ :: seg ∧
      .closed ∉ labels key seg := by
  rw [labels_append, labels_cons] at h
  simp only [entryLabel, if_true, Option.toList_some, List.singleton_append] at h
  obtain ⟨ep, hrun⟩ := open_of_drew h
  exact labels_open hrun

/-- While a task has an access-key reply in hand, no other task does anything to an entry. -/
theorem fresh_act {u : ι} {b : Nonce} (hc : CacheInv g s) (hp : g t = some p) (ha : p.allowed e)
    (hut : u ≠ t) (hu : g u = some (.replied key b)) (h : Fresh tr u key b) :
    Fresh (tr ++ [⟨t, ⟨e, r⟩⟩]) u key b := by
  obtain ⟨pre, reference, reply, post, rfl, hb, hpost⟩ := h
  refine ⟨pre, reference, reply, post ++ [⟨t, ⟨e, r⟩⟩], by simp, hb, ?_⟩
  intro k
  rw [labels_concat, hpost k, List.nil_append]
  by_cases hl : entryLabel k ⟨e, r⟩ = none
  · rw [hl]
    rfl
  · obtain ⟨m, hm⟩ := Phase.holds_of_label ha hl
    have halone := hc.lock.alone (standings_of_eq hu) ((standings_of_eq hp).trans hm)
    exact absurd halone.symm hut

variable [DecidableEq ι]

theorem perform_entry (hs : perform w ep t e ans s = some (r, s')) :
    s'.nonces key = (entryLabel key ⟨e, r⟩).elim (s.nonces key) Label.ticket := by
  cases e with
  | nonceInsert k v =>
      cases Option.some.inj hs
      by_cases hk : k = key
      · simp [entryLabel, hk, Label.ticket]
      · simp [entryLabel, hk, Function.update_of_ne (Ne.symm hk)]
  | nonceFetchAdd k =>
      obtain ⟨-, rfl⟩ := perform_nonceFetchAdd hs
      by_cases hk : k = key
      · simp [entryLabel, hk, Label.ticket]
      · simp [entryLabel, hk, Function.update_of_ne (Ne.symm hk)]
  | nonceRemove k =>
      cases Option.some.inj hs
      by_cases hk : k = key
      · simp [entryLabel, hk, Label.ticket]
      · simp [entryLabel, hk, Function.update_of_ne (Ne.symm hk)]
  | lockAcquire m =>
      obtain ⟨l, -, rfl⟩ := perform_lockAcquire hs
      rfl
  | rpc call =>
      obtain ⟨e', -, rfl⟩ := perform_rpc hs
      rfl
  | _ =>
      cases Option.some.inj hs
      rfl

/-- A label that a task may produce is a step of the counter. -/
theorem step_label {a : Label} {st : Option Epoch} (hc : CacheInv g s) (hp : g t = some p)
    (ha : p.allowed e) (hs : perform w ep t e ans s = some (r, s'))
    (hno : NoOverflow (tr ++ [⟨t, ⟨e, r⟩⟩])) (hent : s.nonces key = st.map Epoch.last)
    (hl : entryLabel key ⟨e, r⟩ = some a) : ∃ st', step st a = some st' := by
  rcases entryLabel_eq_some hl with ⟨v, heq, rfl⟩ | ⟨n, heq, rfl⟩ | ⟨heq, rfl⟩
  · -- the entry is missing when it is inserted, so the counter is closed
    cases heq
    obtain ⟨b, rfl, -⟩ := Phase.allowed_nonceInsert ha
    have hnone := hc.knows t _ key false hp rfl
    rw [hent] at hnone
    cases st with
    | none => exact ⟨_, rfl⟩
    | some ep => cases hnone
  · cases heq
    obtain ⟨hn, -⟩ := perform_nonceFetchAdd hs
    have hlt := hno.draw (List.mem_append_right _ List.mem_cons_self)
    rw [hent] at hn
    obtain ⟨ep, rfl, hlast⟩ := Option.map_eq_some_iff.mp hn
    refine ⟨some ep.draw, ?_⟩
    rw [wrapSucc_of_lt hlt, step, if_pos (by rw [hlast])]
  · exact ⟨none, by cases st <;> rfl⟩

theorem tracks_act (hc : CacheInv g s) (hp : g t = some p) (ha : p.allowed e)
    (hs : perform w ep t e ans s = some (r, s')) (hno : NoOverflow (tr ++ [⟨t, ⟨e, r⟩⟩]))
    (h : Tracks key tr s) : Tracks key (tr ++ [⟨t, ⟨e, r⟩⟩]) s' := by
  obtain ⟨st, hrun, hent⟩ := h
  have hent' : s'.nonces key = (entryLabel key ⟨e, r⟩).elim (s.nonces key) Label.ticket :=
    perform_entry hs
  rw [Tracks, labels_concat]
  cases hl : entryLabel key ⟨e, r⟩ with
  | none =>
      rw [hl] at hent'
      refine ⟨st, by simpa using hrun, ?_⟩
      rw [hent', ← hent]
      rfl
  | some a =>
      rw [hl] at hent'
      obtain ⟨st', hst⟩ := step_label hc hp ha hs hno hent hl
      refine ⟨st', ?_, ?_⟩
      · rw [Option.toList_some, run_concat, hrun]
        exact hst
      · rw [hent', Option.elim_some]
        cases hticket : a.ticket with
        | none =>
            cases a with
            | closed => rw [step_closed hst]; rfl
            | _ => cases hticket
        | some v =>
            obtain ⟨ep, rfl, hep⟩ := step_ticket hst hticket
            rw [← hep]
            rfl

theorem epochInv_sound :
    Sound (machine w ep : Machine ι (Shared ι W) A Op Op.Reply) nonceProtocol EpochInv where
  act := by
    intro tr g s t p e ans r s' h hp ha hs
    refine ⟨cacheInv_act h.cache hp ha hs, ?_, ?_⟩
    · intro hno key
      exact tracks_act h.cache hp ha hs hno (h.counter hno.prefix key)
    · intro u key b hu
      by_cases hut : u = t
      · subst hut
        rw [Function.update_self] at hu
        obtain ⟨reference, reply, hb, hact⟩ := Phase.next_replied ha (Option.some.inj hu)
        exact ⟨tr, reference, reply, [], by rw [hact], hb, fun k => rfl⟩
      · rw [Function.update_of_ne hut] at hu
        exact fresh_act h.cache hp ha hut hu (h.fresh u key b hu)
  drop := by
    intro tr g s t p h _
    refine ⟨cacheInv_drop h.cache t, h.counter, ?_⟩
    intro u key b hu
    by_cases hut : u = t
    · subst hut
      simp at hu
    · rw [Function.update_of_ne hut] at hu
      exact h.fresh u key b hu
  ambient _ h := ⟨⟨h.cache.lock, h.cache.knows⟩, h.counter, h.fresh⟩

theorem epochInv_reachable {α : Type} {counters : CounterId → ℕ} {e : W} {prog : ι → Task α}
    (hd : ∀ t, Disciplined (prog t)) {tr : List (Event ι Op Op.Reply)}
    {c : Config ι (Shared ι W) Op Op.Reply α}
    (h : Run (machine w ep) (.start ⟨counters, fun _ => none, .free, e⟩ prog) tr c) :
    EpochInv tr (ghost nonceProtocol .idle tr c) c.shared := by
  refine h.invariant epochInv_sound ?_ hd
  refine ⟨cacheInv_start counters _ e, fun _ key => ⟨none, rfl, rfl⟩, ?_⟩
  intro t key b ht
  cases ht

end invariant

end NearFetch
