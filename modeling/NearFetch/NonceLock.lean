import NearFetch.NonceProtocol

/-! # The lock of the nonce cache

Tasks on clones of one client call `fetch_nonce`, `invalidate_cache`, `send_tx_once` and
`send_tx_async` in any interleaving.  `CacheInv` ties the lock and the map to the phases of
the tasks: the lock is what the phases say, and what a task knows of the map under its
guard is true.  It is kept by every effect that the protocol allows (`cacheInv_act`), because
nobody else holds a guard while a task inserts or removes an entry.

It follows that no task waits for the lock while it holds a guard, and that the tasks cannot
all be stuck: some reply is outstanding or some task can move (`nonceLock_deadlockFree`). -/

namespace NearFetch

open Effects FifoLock

/-! ### The invariant -/

section invariant

variable {ι W A : Type}

/-- What the tasks have to do with the lock; a dropped task has nothing. -/
def standings (g : ι → Option Phase) (t : ι) : Standing :=
  match g t with
  | some p => p.standing
  | none => .out

theorem standings_of_eq {g : ι → Option Phase} {t : ι} {p : Phase} (h : g t = some p) :
    standings g t = p.standing := by
  simp [standings, h]

/-- The lock is what the phases of the tasks say, and what they know of the map is true. -/
structure CacheInv (g : ι → Option Phase) (s : Shared ι W) : Prop where
  lock : Agrees (standings g) s.lock
  knows : ∀ t p key b, g t = some p → p.knows = some (key, b) → (s.nonces key).isSome = b

theorem cacheInv_start (counters : CounterId → ℕ) (nonces : CacheKey → Option Nonce) (e : W) :
    CacheInv (fun _ : ι => some Phase.idle) ⟨counters, nonces, .free, e⟩ := by
  refine ⟨agrees_free, ?_⟩
  rintro t p key b hp hk
  cases hp
  cases hk

variable [DecidableEq ι] {w : ℕ} {ep : Endpoint W A}

theorem standings_update (g : ι → Option Phase) (t : ι) (p : Phase) :
    standings (Function.update g t (some p)) = Function.update (standings g) t p.standing := by
  funext u
  by_cases hu : u = t
  · subst hu
    simp [standings]
  · simp [standings, hu]

theorem standings_update_none (g : ι → Option Phase) (t : ι) :
    standings (Function.update g t none) = Function.update (standings g) t .out := by
  funext u
  by_cases hu : u = t
  · subst hu
    simp [standings]
  · simp [standings, hu]

theorem perform_isSome {t : ι} {e : Op} {ans : Option e.Reply} {r : e.Reply} {s s' : Shared ι W}
    (h : perform w ep t e ans s = some (r, s')) (hins : ∀ key v, e ≠ .nonceInsert key v)
    (hrem : ∀ key, e ≠ .nonceRemove key) (key : CacheKey) :
    (s'.nonces key).isSome = (s.nonces key).isSome := by
  cases e with
  | nonceInsert k v => exact absurd rfl (hins k v)
  | nonceRemove k => exact absurd rfl (hrem k)
  | nonceFetchAdd k =>
      obtain ⟨hn, rfl⟩ := perform_nonceFetchAdd h
      by_cases hk : key = k
      · subst hk
        simp [hn]
      · simp [hk]
  | lockAcquire m =>
      obtain ⟨l, -, rfl⟩ := perform_lockAcquire h
      rfl
  | rpc call =>
      obtain ⟨e', -, rfl⟩ := perform_rpc h
      rfl
  | _ =>
      cases Option.some.inj h
      rfl

theorem perform_lock {t : ι} {e : Op} {ans : Option e.Reply} {r : e.Reply} {s s' : Shared ι W}
    (h : perform w ep t e ans s = some (r, s')) (hreq : ∀ m, e ≠ .lockRequest m)
    (hacq : ∀ m, e ≠ .lockAcquire m) (hdrop : e ≠ .guardDrop) : s'.lock = s.lock := by
  cases e with
  | lockRequest m => exact absurd rfl (hreq m)
  | lockAcquire m => exact absurd rfl (hacq m)
  | guardDrop => exact absurd rfl hdrop
  | nonceFetchAdd k =>
      obtain ⟨-, rfl⟩ := perform_nonceFetchAdd h
      rfl
  | rpc call =>
      obtain ⟨e', -, rfl⟩ := perform_rpc h
      rfl
  | _ =>
      cases Option.some.inj h
      rfl

variable {g : ι → Option Phase} {s s' : Shared ι W} {t : ι} {p : Phase} {e : Op}
  {ans : Option e.Reply} {r : e.Reply}

theorem lock_act (h : Agrees (standings g) s.lock) (hp : g t = some p) (ha : p.allowed e)
    (hs : perform w ep t e ans s = some (r, s')) :
    Agrees (standings (Function.update g t (some (p.next e r)))) s'.lock := by
  rw [standings_update]
  have hst := standings_of_eq hp
  by_cases hreq : ∃ m, e = .lockRequest m
  · obtain ⟨m, rfl⟩ := hreq
    obtain rfl := Phase.allowed_lockRequest ha
    cases Option.some.inj hs
    exact h.request hst m
  by_cases hacq : ∃ m, e = .lockAcquire m
  · obtain ⟨m, rfl⟩ := hacq
    obtain rfl := Phase.allowed_lockAcquire ha
    obtain ⟨l, hl, rfl⟩ := perform_lockAcquire hs
    exact h.acquire hl
  by_cases hdrop : e = .guardDrop
  · subst hdrop
    obtain ⟨⟨m, hm⟩, hout⟩ := Phase.allowed_guardDrop ha
    cases Option.some.inj hs
    rw [hout]
    exact h.release (hst.trans hm)
  · have hreq' := not_exists.mp hreq
    have hacq' := not_exists.mp hacq
    rw [Phase.standing_next ha r hreq' hacq' hdrop, ← hst, Function.update_eq_self,
      perform_lock hs hreq' hacq' hdrop]
    exact h

/-- What a task knows after an allowed effect of its own is true. -/
theorem knows_own (h : CacheInv g s) (hp : g t = some p) (ha : p.allowed e)
    (hs : perform w ep t e ans s = some (r, s')) {key : CacheKey} {b : Bool}
    (hk : (p.next e r).knows = some (key, b)) : (s'.nonces key).isSome = b := by
  cases p with
  | holding m =>
      cases e with
      | nonceGet k =>
          cases Option.some.inj hs
          simp only [Phase.next] at hk
          split at hk
          · rename_i hr
            cases hk
            exact hr
          · rename_i hr
            cases hk
            simpa using hr
      | guardDrop => cases hk
      | nonceRemove k => cases hk
      | _ => cases ha
  | missing m k =>
      cases e with
      | guardDrop => cases hk
      | rpc call =>
          have hsome := perform_isSome hs (by simp) (by simp) key
          rw [hsome]
          cases call with
          | query reference request =>
              simp only [Phase.next] at hk
              split at hk
              · cases hk
                exact h.knows t _ _ _ hp rfl
              · cases hk
          | _ => cases ha
      | _ => cases ha
  | idle => cases e <;> first | (cases ha; done) | cases hk
  | queued m => cases e <;> first | (cases ha; done) | cases hk
  | found m k => cases e <;> first | (cases ha; done) | cases hk
  | replied k v => cases e <;> first | (cases ha; done) | cases hk
  | drawn m k v =>
      cases e with
      | rpc call => cases call <;> first | (cases ha; done) | (cases r <;> cases hk)
      | _ => cases ha
  | ready m k v => cases e <;> first | (cases ha; done) | cases hk
  | failed m k => cases e <;> first | (cases ha; done) | cases hk
  | returning k v => cases e <;> first | (cases ha; done) | cases hk

theorem cacheInv_act (h : CacheInv g s) (hp : g t = some p) (ha : p.allowed e)
    (hs : perform w ep t e ans s = some (r, s')) :
    CacheInv (Function.update g t (some (p.next e r))) s' := by
  refine ⟨lock_act h.lock hp ha hs, ?_⟩
  intro u q key b hq hk
  by_cases hu : u = t
  · subst hu
    rw [Function.update_self] at hq
    cases hq
    exact knows_own h hp ha hs hk
  · rw [Function.update_of_ne hu] at hq
    have hold := h.knows u q key b hq hk
    -- a task that knows something holds a guard, so nobody inserts or removes now
    obtain ⟨m, hm⟩ := Phase.knows_standing hk
    have hsu : standings g u = .holds m := (standings_of_eq hq).trans hm
    have hnot : ∀ {x}, p = x → x.standing = .holds .write → False := by
      rintro x rfl hx
      exact hu (h.lock.alone ((standings_of_eq hp).trans hx) hsu)
    rw [perform_isSome hs, hold]
    · rintro k v rfl
      obtain ⟨b', hb, -⟩ := Phase.allowed_nonceInsert ha
      exact hnot hb rfl
    · rintro k rfl
      exact hnot (Phase.allowed_nonceRemove ha) rfl

theorem cacheInv_drop (h : CacheInv g s) (t : ι) :
    CacheInv (Function.update g t none) { s with lock := s.lock.discard t } := by
  refine ⟨?_, ?_⟩
  · rw [standings_update_none]
    exact h.lock.discard
  · intro u q key b hq hk
    by_cases hu : u = t
    · subst hu
      simp at hq
    · rw [Function.update_of_ne hu] at hq
      exact h.knows u q key b hq hk

theorem cacheInv_sound :
    Sound (machine w ep : Machine ι (Shared ι W) A Op Op.Reply) nonceProtocol
      (fun _ g s => CacheInv g s) where
  act h hg ha hs := cacheInv_act h hg ha hs
  drop h _ := cacheInv_drop h _
  ambient _ h := ⟨h.lock, h.knows⟩

theorem cacheInv_reachable {α : Type} {counters : CounterId → ℕ} {nonces : CacheKey → Option Nonce}
    {e : W} {prog : ι → Task α} (hd : ∀ t, Disciplined (prog t)) {tr : List (Event ι Op Op.Reply)}
    {c : Config ι (Shared ι W) Op Op.Reply α}
    (h : Run (machine w ep) (.start ⟨counters, nonces, .free, e⟩ prog) tr c) :
    CacheInv (ghost nonceProtocol .idle tr c) c.shared :=
  h.invariant cacheInv_sound (cacheInv_start counters nonces e) hd

end invariant

/-! ### Freedom from deadlock -/

section deadlock

variable {ι W A α : Type} {c : Config ι (Shared ι W) Op Op.Reply α} {t : ι}

/-- The task was neither dropped nor has it ended. -/
def Unfinished (c : Config ι (Shared ι W) Op Op.Reply α) (t : ι) : Prop :=
  ∃ p, c.thread t = some p ∧ ¬ p.Done

/-- The task holds a guard of the nonce cache. -/
def HoldsGuard (c : Config ι (Shared ι W) Op Op.Reply α) (t : ι) : Prop :=
  t ∈ c.shared.lock.readers ∨ c.shared.lock.writer = some t

/-- The task is in the queue of the lock, or about to enter it. -/
def WaitsForGuard (c : Config ι (Shared ι W) Op Op.Reply α) (t : ι) : Prop :=
  ∃ m, (t, m) ∈ c.shared.lock.queue ∨ (∃ k, c.thread t = some (.op (.lockRequest m) k)) ∨
    ∃ k, c.thread t = some (.op (.lockAcquire m) k)

/-- The task waits for the reply to an RPC call. -/
def AwaitsReply (c : Config ι (Shared ι W) Op Op.Reply α) (t : ι) : Prop :=
  ∃ call k, c.thread t = some (.op (.rpc call) k)

variable [DecidableEq ι] {w : ℕ} {ep : Endpoint W A}

/-- The task can take a step by itself: it performs its next effect, which is not an RPC call,
or it unwinds from a panic. -/
def CanStep (w : ℕ) (ep : Endpoint W A) (c : Config ι (Shared ι W) Op Op.Reply α) (t : ι) : Prop :=
  (∃ e k r s, c.thread t = some (.op e k) ∧ (∀ call, e ≠ .rpc call) ∧
      perform w ep t e none c.shared = some (r, s)) ∨
    ∃ msg, c.thread t = some (.panic msg)

/-- Only the lock, an RPC call and a missing entry can hold a task up. -/
theorem perform_enabled {g : ι → Option Phase} {s : Shared ι W} {p : Phase} {e : Op}
    (h : CacheInv g s) (hp : g t = some p) (ha : p.allowed e) (hrpc : ∀ call, e ≠ .rpc call)
    (hacq : ∀ m, e ≠ .lockAcquire m) : ∃ r s', perform w ep t e none s = some (r, s') := by
  cases e with
  | lockAcquire m => exact absurd rfl (hacq m)
  | rpc call => exact absurd rfl (hrpc call)
  | nonceFetchAdd key =>
      obtain ⟨m, rfl⟩ := Phase.allowed_nonceFetchAdd ha
      have hsome := h.knows t _ key true hp rfl
      obtain ⟨n, hn⟩ := Option.isSome_iff_exists.mp hsome
      exact ⟨_, _, by rw [perform, hn]; rfl⟩
  | _ => exact ⟨_, _, rfl⟩

variable {counters : CounterId → ℕ} {nonces : CacheKey → Option Nonce} {e₀ : W}
  {prog : ι → Task α} {tr : List (Event ι Op Op.Reply)}

/-- A task that does not wait for the lock awaits a reply or can step, unless it has ended. -/
theorem steps_of_not_queued (hd : ∀ t, Disciplined (prog t))
    (h : Run (machine w ep) (.start ⟨counters, nonces, .free, e₀⟩ prog) tr c) {p : Task α}
    (ht : c.thread t = some p) (hdone : ¬ p.Done)
    (hq : ∀ m, nonceProtocol.after .idle (acts t tr) ≠ .queued m) :
    AwaitsReply c t ∨ CanStep w ep c t := by
  have hfol := h.follows hd ht
  cases p with
  | pure a => exact absurd trivial hdone
  | panic msg => exact .inr (.inr ⟨msg, ht⟩)
  | op e k =>
      by_cases hrpc : ∃ call, e = .rpc call
      · obtain ⟨call, rfl⟩ := hrpc
        exact .inl ⟨call, k, ht⟩
      · have hacq : ∀ m, e ≠ .lockAcquire m := by
          rintro m rfl
          exact hq m (Phase.allowed_lockAcquire hfol.1)
        have hinv := cacheInv_reachable hd h
        have hs : ∃ r s, perform w ep t e none c.shared = some (r, s) :=
          perform_enabled hinv (ghost_of_thread ht) hfol.1 (not_exists.mp hrpc) hacq
        obtain ⟨r, s, hs⟩ := hs
        exact .inr (.inl ⟨e, k, r, s, ht, not_exists.mp hrpc, hs⟩)

theorem exists_of_standing {st : Standing} (hst : st ≠ .out)
    (h : standings (ghost nonceProtocol .idle tr c) t = st) :
    ∃ p, c.thread t = some p ∧ (nonceProtocol.after .idle (acts t tr)).standing = st := by
  cases hg : ghost nonceProtocol .idle tr c t with
  | none =>
      rw [standings, hg] at h
      exact absurd h.symm hst
  | some p =>
      obtain ⟨q, hq, rfl⟩ := ghost_eq_some hg
      rw [standings_of_eq hg] at h
      exact ⟨q, hq, h⟩

theorem not_done_of_standing (hd : ∀ t, Disciplined (prog t))
    (h : Run (machine w ep) (.start ⟨counters, nonces, .free, e₀⟩ prog) tr c) {p : Task α}
    (ht : c.thread t = some p) (hst : (nonceProtocol.after .idle (acts t tr)).standing ≠ .out) :
    ¬ p.Done := by
  have hfol := h.follows hd ht
  cases p with
  | pure a =>
      rw [show nonceProtocol.after .idle (acts t tr) = Phase.idle from hfol] at hst
      exact absurd rfl hst
  | op e k => exact id
  | panic msg => exact id

/-- When somebody waits for the lock, a reply is outstanding or some task can step: the oldest
request can be granted, or the holder of a guard goes on. -/
theorem steps_of_queue (hd : ∀ t, Disciplined (prog t))
    (h : Run (machine w ep) (.start ⟨counters, nonces, .free, e₀⟩ prog) tr c)
    (hq : c.shared.lock.queue ≠ []) : (∃ t, AwaitsReply c t) ∨ ∃ t, CanStep w ep c t := by
  rcases (cacheInv_reachable hd h).lock.progress hq with ⟨u, m, l, hu, hl⟩ | ⟨u, m, hu⟩
  · obtain ⟨p, hp, hst⟩ := exists_of_standing (by simp) hu
    have hdone := not_done_of_standing hd h hp (by simp [hst])
    have hfol := h.follows hd hp
    have hphase : nonceProtocol.after .idle (acts u tr) = Phase.queued m := by
      cases hph : nonceProtocol.after .idle (acts u tr) with
      | queued n =>
          rw [hph] at hst
          injection hst with hn
          rw [hn]
      | _ => rw [hph] at hst; cases hst
    cases p with
    | pure a => exact absurd trivial hdone
    | panic msg => exact .inr ⟨u, .inr ⟨msg, hp⟩⟩
    | op e k =>
        rw [hphase] at hfol
        obtain rfl : e = .lockAcquire m := by
          cases e with
          | lockAcquire n => rw [show n = m from hfol.1]
          | _ => cases hfol.1
        refine .inr ⟨u, .inl ⟨_, k, (), { c.shared with lock := l }, hp, by simp, ?_⟩⟩
        rw [perform, hl]
        rfl
  · obtain ⟨p, hp, hst⟩ := exists_of_standing (by simp) hu
    have hdone := not_done_of_standing hd h hp (by simp [hst])
    have hne : ∀ n, nonceProtocol.after .idle (acts u tr) ≠ .queued n := by
      intro n hn
      rw [hn] at hst
      cases hst
    exact (steps_of_not_queued hd h hp hdone hne).imp (fun h => ⟨u, h⟩) fun h => ⟨u, h⟩

theorem not_holdsGuard (hd : ∀ t, Disciplined (prog t))
    (h : Run (machine w ep) (.start ⟨counters, nonces, .free, e₀⟩ prog) tr c)
    (hw : WaitsForGuard c t) : ¬ HoldsGuard c t := by
  have hlock := (cacheInv_reachable hd h).lock
  have hout : ∀ m, standings (ghost nonceProtocol .idle tr c) t ≠ .holds m := by
    intro m hm
    obtain ⟨m', hq | ⟨k, ht⟩ | ⟨k, ht⟩⟩ := hw
    · rw [(hlock.queued t m').mp hq] at hm
      cases hm
    · have hph := Phase.allowed_lockRequest (h.follows hd ht).1
      rw [standings_of_eq (ghost_of_thread ht), hph] at hm
      cases hm
    · have hph := Phase.allowed_lockAcquire (h.follows hd ht).1
      rw [standings_of_eq (ghost_of_thread ht), hph] at hm
      cases hm
  rintro (hr | hw)
  · exact hout .read ((hlock.reading t).mp hr)
  · exact hout .write ((hlock.writing t).mp hw)

theorem steps_of_unfinished (hd : ∀ t, Disciplined (prog t))
    (h : Run (machine w ep) (.start ⟨counters, nonces, .free, e₀⟩ prog) tr c)
    (ht : Unfinished c t) : (∃ t, AwaitsReply c t) ∨ ∃ t, CanStep w ep c t := by
  obtain ⟨p, hp, hdone⟩ := ht
  by_cases hq : ∃ m, nonceProtocol.after .idle (acts t tr) = .queued m
  · obtain ⟨m, hm⟩ := hq
    have hst : standings (ghost nonceProtocol .idle tr c) t = .queued m := by
      rw [standings_of_eq (ghost_of_thread hp), hm]
      rfl
    have hmem := ((cacheInv_reachable hd h).lock.queued t m).mpr hst
    exact steps_of_queue hd h (List.ne_nil_of_mem hmem)
  · have hne := not_exists.mp hq
    exact (steps_of_not_queued hd h hp hdone hne).imp (fun h => ⟨t, h⟩) fun h => ⟨t, h⟩

end deadlock

section calls

variable {ι W A : Type} [DecidableEq ι]

/-- The lock of the nonce cache cannot deadlock, whatever the tasks of a client call. -/
theorem nonceLock_deadlockFree (cr : Crypto) (w : ℕ) (ep : Endpoint W A)
    (calls : ι → List ClientCall) (counters : CounterId → ℕ) (nonces : CacheKey → Option Nonce)
    (e : W) {tr : List (Event ι Op Op.Reply)} {c : Config ι (Shared ι W) Op Op.Reply Unit}
    (h : Run (machine w ep)
      (.start ⟨counters, nonces, .free, e⟩ fun t => ClientCall.session cr (calls t)) tr c) :
    (∀ t, WaitsForGuard c t → ¬ HoldsGuard c t) ∧
      ((∃ t, Unfinished c t) → (∃ t, AwaitsReply c t) ∨ ∃ t, CanStep w ep c t) := by
  have hd : ∀ t, Disciplined (ClientCall.session cr (calls t)) := fun t =>
    ClientCall.session_disciplined cr (calls t)
  refine ⟨fun t hw => not_holdsGuard hd h hw, ?_⟩
  rintro ⟨t, ht⟩
  exact steps_of_unfinished hd h ht

/-- A schedule of two tasks: the first holds the write guard and asks for the access key, and
the second has queued up for a read guard. -/
def contention : List (Move ℕ Empty Op Op.Reply) :=
  [.act 0 fun _ => none, .act 0 fun _ => none, .act 0 fun _ => none, .act 0 fun _ => none,
    .act 0 fun _ => none, .act 0 fun _ => none, .act 0 fun _ => none, .act 1 fun _ => none]

theorem nonceLock_deadlockFree_contention :
    ∃ tr c, Run (machine 64 anyEndpoint) (.start ⟨fun _ => 0, fun _ => none, .free, ()⟩ fun _ : ℕ =>
        ClientCall.session .transparent [.fetchNonce ⟨"alice.near"⟩ ⟨[1]⟩]) tr c ∧
      HoldsGuard c 0 ∧ WaitsForGuard c 1 ∧ ¬ HoldsGuard c 1 ∧
      ((∃ t, AwaitsReply c t) ∨ ∃ t, CanStep 64 anyEndpoint c t) := by
  have hexec : ∃ tr c, (machine 64 anyEndpoint).exec [] (.start ⟨fun _ => 0, fun _ => none, .free, ()⟩
      fun _ : ℕ => ClientCall.session .transparent [.fetchNonce ⟨"alice.near"⟩ ⟨[1]⟩]) contention =
        some (tr, c) ∧ c.shared.lock = ⟨[], some 0, [(1, .read)]⟩ ∧ Unfinished c 1 :=
    ⟨_, _, rfl, rfl, _, rfl, id⟩
  obtain ⟨tr, c, hexec, hlock, hun⟩ := hexec
  have hrun := Run.start.exec hexec
  obtain ⟨hwait, hsteps⟩ := nonceLock_deadlockFree _ _ _ _ _ _ _ hrun
  have hw : WaitsForGuard c 1 := ⟨.read, .inl (by rw [hlock]; decide)⟩
  exact ⟨tr, c, hrun, .inr (by rw [hlock]), hw, hwait 1 hw, hsteps ⟨1, hun⟩⟩

end calls

end NearFetch
