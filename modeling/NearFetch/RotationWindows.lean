import NearFetch.RoundRobin
import NearFetch.KeyRotation

/-! # The order in which the keys are rotated

The rotations of a run read the values of the counter one after another, whichever tasks make them
(`rotationReads_of_run`), and each selects the signer at its value modulo the number of signers
(`fetchAndRotateSigner_returns`).  So as many consecutive rotations as there are signers are a window
of a round robin by a counter modulo `2 ^ w`, and `rotations_once_iff` says when each signer has its
turn in it. -/

namespace NearFetch

open Effects FifoLock

/-- What a rotation read. -/
def rotationRead (counter : CounterId) : Act Op Op.Reply → Option ℕ
  | ⟨.counterFetchAdd c, v⟩ => if c = counter then some v else none
  | _ => none

section runs

variable {ι W A α : Type}

/-- What the rotations of the trace read, in the order of their increments. -/
def rotationReads (counter : CounterId) (tr : List (Event ι Op Op.Reply)) : List ℕ :=
  tr.filterMap fun ev => rotationRead counter ev.act

theorem rotationReads_concat (counter : CounterId) (tr : List (Event ι Op Op.Reply))
    (ev : Event ι Op Op.Reply) : rotationReads counter (tr ++ [ev]) =
      rotationReads counter tr ++ (rotationRead counter ev.act).toList := by
  rw [rotationReads, List.filterMap_append, List.filterMap_cons_toList, List.filterMap_nil,
    List.append_nil]
  rfl

variable [DecidableEq ι] {w : ℕ} {ep : Endpoint W A} {counter : CounterId}

theorem perform_rotationRead {t : ι} {e : Op} {ans : Option e.Reply} {r : e.Reply}
    {s s' : Shared ι W} (h : perform w ep t e ans s = some (r, s')) :
    (rotationRead counter ⟨e, r⟩).toList =
      if e.rotates counter = true then [s.counters counter] else [] := by
  cases e with
  | counterFetchAdd c =>
      cases Option.some.inj h
      by_cases hc : c = counter
      · simp [rotationRead, Op.rotates, hc]
      · simp [rotationRead, Op.rotates, hc]
  | _ => rfl

/-- The rotations of a run read consecutive values, modulo `2 ^ w`. -/
theorem rotationReads_of_run {s₀ : Shared ι W} {prog : ι → Task α}
    {tr : List (Event ι Op Op.Reply)} {c : Config ι (Shared ι W) Op Op.Reply α}
    (h : Run (machine w ep) (.start s₀ prog) tr c) (hstart : s₀.counters counter < 2 ^ w) :
    rotationReads counter tr =
      (List.range (rotations counter tr)).map fun k => (s₀.counters counter + k) % 2 ^ w := by
  induction h with
  | start => rfl
  | @act tr c u e k ans r s h _ hs ih =>
      rw [rotationReads_concat, ih, perform_rotationRead hs, rotations_concat,
        counter_of_run h hstart]
      split
      · rw [List.range_succ, List.map_append, List.map_singleton]
      · rw [List.append_nil, Nat.add_zero]
  | drop _ _ _ ih => exact ih
  | ambient a _ ih => exact ih

end runs

theorem stretch_of_map_range {M start count first : ℕ} {before rest after : List ℕ}
    (h : (List.range count).map (fun k => (start + k) % M) = before ++ (first :: rest) ++ after) :
    first = (start + before.length) % M ∧
      first :: rest = (List.range (rest.length + 1)).map fun i => (first + i) % M := by
  have hget : ∀ i < rest.length + 1,
      (first :: rest)[i]? = some ((start + before.length + i) % M) := by
    intro i hi
    have hlist : ((List.range count).map fun k => (start + k) % M)[before.length + i]? =
        (first :: rest)[i]? := by
      rw [h, List.append_assoc, List.getElem?_append_right (Nat.le_add_right _ _),
        Nat.add_sub_cancel_left, List.getElem?_append_left hi]
    have hcount : before.length + i < count := by
      have hlen := congrArg List.length h
      simp only [List.length_map, List.length_range, List.length_append, List.length_cons] at hlen
      omega
    rw [← hlist, List.getElem?_map, List.getElem?_range hcount, Option.map_some, Nat.add_assoc]
  have hfirst : first = (start + before.length) % M := Option.some.inj (hget 0 (Nat.succ_pos _))
  refine ⟨hfirst, List.ext_getElem? fun i => ?_⟩
  by_cases hi : i < rest.length + 1
  · rw [hget i hi, List.getElem?_map, List.getElem?_range hi, Option.map_some, hfirst,
      Nat.mod_add_mod]
  · rw [List.getElem?_eq_none (Nat.not_lt.mp hi), List.getElem?_eq_none (by simpa using hi)]

section signers

variable (ks : KeyRotatingSigner)

/-- The place among the signers that a counter value selects. -/
def KeyRotatingSigner.place (v : ℕ) : ℕ := v % ks.signers.length

/-- A call is one rotation, and it returns the signer at the place of what it read. -/
theorem fetchAndRotateSigner_returns {l : List (Act Op Op.Reply)} {s : Signer} :
    Returns ks.fetchAndRotateSigner l s ↔
      ∃ v, l = [⟨.counterFetchAdd ks.counter, v⟩] ∧ ks.signers[ks.place v]? = some s := by
  have hselect : ∀ (v : ℕ) (l' : List (Act Op Op.Reply)),
      Returns (ks.select v) l' s ↔ l' = [] ∧ ks.signers[ks.place v]? = some s := by
    intro v l'
    unfold KeyRotatingSigner.select KeyRotatingSigner.place
    cases ks.signers[v % ks.signers.length]? with
    | none => simp
    | some s' => simp [eq_comm]
  unfold KeyRotatingSigner.fetchAndRotateSigner
  rw [returns_effect]
  constructor
  · rintro ⟨v, l', rfl, h⟩
    obtain ⟨rfl, hs⟩ := (hselect v l').mp h
    exact ⟨v, rfl, hs⟩
  · rintro ⟨v, rfl, hs⟩
    exact ⟨v, [], rfl, (hselect v []).mpr ⟨rfl, hs⟩⟩

variable {ι W A α : Type} [DecidableEq ι]

/-- A rotation returns the signer at the place of what it read.  In every run, whatever the tasks are,
that is an existing place, and as many consecutive rotations as there are signers select each place
once if and only if the counter does not wrap in between or the number of signers divides `2 ^ w`. -/
theorem rotations_once_iff (hne : 0 < ks.signers.length) (w : ℕ) (ep : Endpoint W A)
    {s₀ : Shared ι W} (hstart : s₀.counters ks.counter < 2 ^ w) (prog : ι → Task α)
    {tr : List (Event ι Op Op.Reply)} {c : Config ι (Shared ι W) Op Op.Reply α}
    (h : Run (machine w ep) (.start s₀ prog) tr c) :
    (∀ l s, Returns ks.fetchAndRotateSigner l s ↔
      ∃ v, l = [⟨.counterFetchAdd ks.counter, v⟩] ∧ ks.signers[ks.place v]? = some s) ∧
    (∀ v ∈ rotationReads ks.counter tr, ks.place v < ks.signers.length ∧
      ∃ s, Returns ks.fetchAndRotateSigner [⟨.counterFetchAdd ks.counter, v⟩] s) ∧
    ∀ before first rest after, rotationReads ks.counter tr = before ++ (first :: rest) ++ after →
      (first :: rest).length = ks.signers.length →
      ((∀ p < ks.signers.length, ((first :: rest).map ks.place).count p = 1) ↔
        first + ks.signers.length ≤ 2 ^ w ∨ ks.signers.length ∣ 2 ^ w) := by
  refine ⟨fun _ _ => fetchAndRotateSigner_returns ks, fun v _ => ⟨Nat.mod_lt v hne, ?_⟩, ?_⟩
  · obtain ⟨s, hs⟩ := ks.signerAt_eq_some hne v
    exact ⟨s, (fetchAndRotateSigner_returns ks).mpr ⟨v, rfl, hs⟩⟩
  · intro before first rest after hsplit hlength
    rw [rotationReads_of_run h hstart] at hsplit
    obtain ⟨hfirst, hstretch⟩ := stretch_of_map_range hsplit
    have hlt : first < 2 ^ w := by
      rw [hfirst]
      exact Nat.mod_lt _ (Nat.two_pow_pos w)
    have hwindow : (first :: rest).map ks.place =
        RoundRobin.window (2 ^ w) ks.signers.length first := by
      rw [hstretch, ← List.length_cons, hlength, List.map_map]
      rfl
    rw [hwindow]
    exact RoundRobin.window_once_iff hlt hne

/-- Three keys of one account. -/
def threeKeys : KeyRotatingSigner :=
  .fromSigners ([[1], [2], [3]].map fun bytes => InMemorySigner.fromSecretKey .transparent
    ⟨"alice.near"⟩ ⟨bytes⟩) 0

theorem rotations_once_iff_wrapped :
    ∃ tr c, Run (machine 64 anyEndpoint)
        (.start ⟨fun _ => 2 ^ 64 - 1, fun _ => none, .free, ()⟩ fun _ : ℕ =>
          threeKeys.fetchAndRotateSigner) tr c ∧
      (rotationReads 0 tr).map threeKeys.place = [0, 0, 1] ∧
      ¬ ∀ p < 3, ((rotationReads 0 tr).map threeKeys.place).count p = 1 := by
  have hexec : ∃ tr c, (machine 64 anyEndpoint).exec []
      (.start ⟨fun _ => 2 ^ 64 - 1, fun _ => none, .free, ()⟩ fun _ : ℕ =>
        threeKeys.fetchAndRotateSigner)
      ([0, 1, 2].map fun t => .act t fun _ => none) = some (tr, c) ∧
      rotationReads 0 tr = [2 ^ 64 - 1, 0, 1] :=
    ⟨_, _, rfl, rfl⟩
  obtain ⟨tr, c, hexec, hreads⟩ := hexec
  have hrun := Run.start.exec hexec
  refine ⟨tr, c, hrun, by rw [hreads]; rfl, ?_⟩
  have hiff := (rotations_once_iff threeKeys (by decide) 64 anyEndpoint (by decide) _ hrun).2.2
    [] (2 ^ 64 - 1) [0, 1] [] hreads rfl
  rw [hreads]
  intro honce
  rcases hiff.mp honce with hle | hdvd
  · revert hle
    decide
  · revert hdvd
    decide

end signers

end NearFetch
