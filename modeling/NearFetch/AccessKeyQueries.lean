import NearFetch.NonceReuse
import NearFetch.Tasks

/-! # What tasks await under a guard

The write guard is held across the query for an access key and some guard across the query for a block, so
at any time at most one access key is queried, nothing else is awaited under a guard then, and the entry
of that key is missing; submissions, status queries and sleeps are awaited without a guard
(`GuardedCalls`).

The cache saves queries: between two queries for one access key, of which the first succeeded, the entry
that the first led to was removed, or the task was dropped before it could insert it
(`queried_anew`).  For this the entry is read off the trace (`entry_of_run`). -/

namespace NearFetch

open Effects FifoLock TicketCounter

section calls

variable {ι W A α : Type}

/-- How the guards are held while calls are awaited. -/
structure GuardedCalls (c : Config ι (Shared ι W) Op Op.Reply α) : Prop where
  /-- An access key is queried under the write guard, and its entry is missing. -/
  query : ∀ t reference accountId publicKey k,
    c.thread t = some (.op (.rpc (.query reference (.viewAccessKey accountId publicKey))) k) →
    c.shared.lock.writer = some t ∧ c.shared.nonces (accountId, publicKey) = none
  /-- Meanwhile no other task holds a guard, or awaits a reply that a guard is held for. -/
  single : ∀ t reference request k u,
    c.thread t = some (.op (.rpc (.query reference request)) k) → HoldsGuard c u → u = t
  /-- The latest block is queried under a guard. -/
  block : ∀ t reference k, c.thread t = some (.op (.rpc (.block reference)) k) → HoldsGuard c t
  /-- Submissions, status queries and sleeps are awaited by tasks that have nothing to do with the lock. -/
  send : ∀ t stx level k, c.thread t = some (.op (.rpc (.sendTx stx level)) k) →
    ¬ HoldsGuard c t ∧ ¬ WaitsForGuard c t
  status : ∀ t senderId hash level k, c.thread t = some (.op (.rpc (.tx senderId hash level)) k) →
    ¬ HoldsGuard c t ∧ ¬ WaitsForGuard c t
  sleep : ∀ t millis k, c.thread t = some (.op (.sleep millis) k) →
    ¬ HoldsGuard c t ∧ ¬ WaitsForGuard c t

namespace Phase

variable {p : Phase}

theorem allowed_query {reference : BlockReference} {request : QueryRequest}
    (h : p.allowed (.rpc (.query reference request))) :
    ∃ accountId publicKey, request = .viewAccessKey accountId publicKey := by
  cases request with
  | viewAccessKey accountId publicKey => exact ⟨accountId, publicKey, rfl⟩
  | _ => cases p <;> cases h

theorem idle_of_outside {e : Op} (h : p.allowed e)
    (he : (∃ stx level, e = .rpc (.sendTx stx level)) ∨
      (∃ senderId hash level, e = .rpc (.tx senderId hash level)) ∨ ∃ millis, e = .sleep millis) :
    p = .idle := by
  rcases he with ⟨stx, level, rfl⟩ | ⟨senderId, hash, level, rfl⟩ | ⟨millis, rfl⟩
  · cases p <;> first | rfl | cases h
  · cases p <;> first | rfl | cases h
  · cases p <;> first | rfl | cases h

theorem allowed_of_replied {key : CacheKey} {b : Nonce} {e : Op}
    (h : (Phase.replied key b).allowed e) : e = .nonceInsert key (wrapSucc b) := by
  cases e with
  | nonceInsert k v =>
      obtain ⟨rfl, rfl⟩ := h
      rfl
  | _ => cases h

end Phase

variable [DecidableEq ι] {w : ℕ} {ep : Endpoint W A} {counters : CounterId → ℕ}
  {nonces : CacheKey → Option Nonce} {e₀ : W} {prog : ι → Task α} {tr : List (Event ι Op Op.Reply)}
  {c : Config ι (Shared ι W) Op Op.Reply α} {t u : ι} {key : CacheKey}

theorem holdsGuard_iff (hlock : Agrees (standings (ghost nonceProtocol .idle tr c)) c.shared.lock) :
    HoldsGuard c t ↔ ∃ m, standings (ghost nonceProtocol .idle tr c) t = .holds m := by
  constructor
  · rintro (hr | hw)
    · exact ⟨.read, (hlock.reading t).mp hr⟩
    · exact ⟨.write, (hlock.writing t).mp hw⟩
  · rintro ⟨m, hm⟩
    cases m with
    | read => exact .inl ((hlock.reading t).mpr hm)
    | write => exact .inr ((hlock.writing t).mpr hm)

/-- A task outside that does not ask for a guard has nothing to do with the lock. -/
theorem outside_of_idle (hd : ∀ t, Disciplined (prog t))
    (h : Run (machine w ep) (.start ⟨counters, nonces, .free, e₀⟩ prog) tr c) {p : Task α}
    (ht : c.thread t = some p) (hidle : nonceProtocol.after .idle (acts t tr) = .idle)
    (hrequest : ∀ m k, p ≠ .op (.lockRequest m) k) (hacquire : ∀ m k, p ≠ .op (.lockAcquire m) k) :
    ¬ HoldsGuard c t ∧ ¬ WaitsForGuard c t := by
  have hlock := (cacheInv_reachable hd h).lock
  have hout : standings (ghost nonceProtocol .idle tr c) t = .out := by
    rw [standings_of_eq (ghost_of_thread ht), hidle]
    rfl
  constructor
  · rw [holdsGuard_iff hlock]
    rintro ⟨m, hm⟩
    rw [hout] at hm
    cases hm
  · rintro ⟨m, hq | ⟨k, hk⟩ | ⟨k, hk⟩⟩
    · have hqueued := (hlock.queued t m).mp hq
      rw [hout] at hqueued
      cases hqueued
    · exact hrequest m k (Option.some.inj (ht.symm.trans hk))
    · exact hacquire m k (Option.some.inj (ht.symm.trans hk))

theorem outside (hd : ∀ t, Disciplined (prog t))
    (h : Run (machine w ep) (.start ⟨counters, nonces, .free, e₀⟩ prog) tr c) {e : Op}
    {k : e.Reply → Task α} (ht : c.thread t = some (.op e k))
    (he : (∃ stx level, e = .rpc (.sendTx stx level)) ∨
      (∃ senderId hash level, e = .rpc (.tx senderId hash level)) ∨ ∃ millis, e = .sleep millis) :
    ¬ HoldsGuard c t ∧ ¬ WaitsForGuard c t := by
  have hidle := Phase.idle_of_outside (h.follows hd ht).1 he
  apply outside_of_idle hd h ht hidle
  · intro m k' hp
    rcases he with ⟨_, _, rfl⟩ | ⟨_, _, _, rfl⟩ | ⟨_, rfl⟩ <;> cases hp
  · intro m k' hp
    rcases he with ⟨_, _, rfl⟩ | ⟨_, _, _, rfl⟩ | ⟨_, rfl⟩ <;> cases hp

theorem standing_of_query (hd : ∀ t, Disciplined (prog t)) {s₀ : Shared ι W}
    (h : Run (machine w ep) (.start s₀ prog) tr c) {reference : BlockReference}
    {request : QueryRequest} {k : Except (JsonRpcError RpcQueryError) RpcQueryResponse → Task α}
    (ht : c.thread t = some (.op (.rpc (.query reference request)) k)) :
    standings (ghost nonceProtocol .idle tr c) t = .holds .write := by
  have hallowed := (h.follows hd ht).1
  obtain ⟨accountId, publicKey, rfl⟩ := Phase.allowed_query hallowed
  rw [standings_of_eq (ghost_of_thread ht), Phase.allowed_viewAccessKey hallowed]
  rfl

theorem guardedCalls_reachable (hd : ∀ t, Disciplined (prog t))
    (h : Run (machine w ep) (.start ⟨counters, nonces, .free, e₀⟩ prog) tr c) : GuardedCalls c := by
  have hinv := cacheInv_reachable hd h
  exact
    { query := by
        intro t reference accountId publicKey k ht
        have hphase := Phase.allowed_viewAccessKey (h.follows hd ht).1
        have hknows := hinv.knows t _ (accountId, publicKey) false (ghost_of_thread ht)
          (by rw [hphase]; rfl)
        refine ⟨(hinv.lock.writing t).mpr (standing_of_query hd h ht), ?_⟩
        simpa using hknows
      single := by
        intro t reference request k u ht hu
        obtain ⟨m, hm⟩ := (holdsGuard_iff hinv.lock).mp hu
        exact hinv.lock.alone (standing_of_query hd h ht) hm
      block := by
        intro t reference k ht
        obtain ⟨m, key, v, hphase⟩ := Phase.allowed_block (h.follows hd ht).1
        refine (holdsGuard_iff hinv.lock).mpr ⟨m, ?_⟩
        rw [standings_of_eq (ghost_of_thread ht), hphase]
        rfl
      send := fun t stx level k ht => outside hd h ht (.inl ⟨stx, level, rfl⟩)
      status := fun t senderId hash level k ht =>
        outside hd h ht (.inr (.inl ⟨senderId, hash, level, rfl⟩))
      sleep := fun t millis k ht => outside hd h ht (.inr (.inr ⟨millis, rfl⟩)) }

/-! ### Queries for one access key -/

/-- The entry is what the last label says, or as at the beginning. -/
theorem entry_of_run {s₀ : Shared ι W} (h : Run (machine w ep) (.start s₀ prog) tr c) :
    c.shared.nonces key = (labels key tr).getLast?.elim (s₀.nonces key) Label.ticket := by
  induction h with
  | start => rfl
  | @act tr c t e k ans r s _ _ hp ih =>
      have hentry : s.nonces key = (entryLabel key ⟨e, r⟩).elim (c.shared.nonces key) Label.ticket :=
        perform_entry hp
      rw [Config.advance_shared, hentry, labels_concat]
      cases entryLabel key ⟨e, r⟩ with
      | none => simpa using ih
      | some a => simp
  | drop _ _ _ ih => exact ih
  | ambient a _ ih => exact ih

theorem removed_since {s₀ : Shared ι W} {pre seg : List (Event ι Op Op.Reply)} {v : Nonce}
    (h : Run (machine w ep) (.start s₀ prog) (pre ++ ⟨t, ⟨.nonceInsert key v, ()⟩⟩ :: seg) c)
    (hnone : c.shared.nonces key = none) : ∃ z, ⟨z, ⟨.nonceRemove key, ()⟩⟩ ∈ seg := by
  rw [entry_of_run h, labels_append, labels_insert] at hnone
  rcases List.eq_nil_or_concat (labels key seg) with hnil | ⟨l, a, hl⟩
  · rw [hnil, List.getLast?_concat] at hnone
    cases hnone
  · rw [List.concat_eq_append] at hl
    rw [hl, ← List.cons_append, ← List.append_assoc, List.getLast?_concat] at hnone
    have hclosed : a = .closed := by
      cases a with
      | closed => rfl
      | _ => cases hnone
    obtain ⟨tr₁, ev, tr₂, rfl, -, hev, -⟩ := labels_eq_append hl
    rw [hclosed] at hev
    obtain ⟨z, rfl⟩ := entryLabel_closed hev
    exact ⟨z, by simp⟩

/-- Between two queries for one access key, of which the first succeeded, the entry was removed, unless the
first task was dropped before it could insert it. -/
theorem queried_anew (hd : ∀ t, Disciplined (prog t)) {pre mid post : List (Event ι Op Op.Reply)}
    {reference reference' : BlockReference}
    {reply reply' : Except (JsonRpcError RpcQueryError) RpcQueryResponse} {b : Nonce}
    (h : Run (machine w ep) (.start ⟨counters, nonces, .free, e₀⟩ prog)
      (pre ++ ⟨t, ⟨.rpc (.query reference (.viewAccessKey key.1 key.2)), reply⟩⟩ ::
        (mid ++ ⟨u, ⟨.rpc (.query reference' (.viewAccessKey key.1 key.2)), reply'⟩⟩ :: post)) c)
    (hb : reportedNonce reply = some b) :
    (∃ z, ⟨z, ⟨.nonceRemove key, ()⟩⟩ ∈ mid) ∨ c.thread t = none ∧ acts t mid = [] := by
  obtain ⟨-, hallowed, hpost⟩ := h.obeys_event hd
  have hphase : nonceProtocol.next (nonceProtocol.after .idle (acts t pre))
      (.rpc (.query reference (.viewAccessKey key.1 key.2))) reply = Phase.replied key b := by
    rw [Phase.allowed_viewAccessKey hallowed]
    simp only [Phase.next, hb]
  rw [hphase, acts_append] at hpost
  rw [← List.cons_append, ← List.append_assoc] at h
  obtain ⟨c₂, k, ans, s, h₂, hu, -, hrest⟩ := h.resume
  cases hmid : acts t mid with
  | nil =>
      -- the task would still have the reply in hand, under the guard that the second query is made under
      have hgone : c₂.thread t = none := by
        rw [Option.eq_none_iff_forall_ne_some]
        intro p hp
        have hreplied : nonceProtocol.after .idle
            (acts t (pre ++ ⟨t, ⟨.rpc (.query reference (.viewAccessKey key.1 key.2)), reply⟩⟩ :: mid)) =
              Phase.replied key b := by
          rw [acts_append, acts_cons_self, hmid, Protocol.after_append]
          exact hphase
        have halone : u = t := by
          refine (cacheInv_reachable hd h₂).lock.alone ?_ (standing_of_query hd h₂ hu)
          rw [standings_of_eq (ghost_of_thread hp), hreplied]
          rfl
        have hmissing := Phase.allowed_viewAccessKey (h₂.follows hd hu).1
        rw [halone, hreplied] at hmissing
        cases hmissing
      have hne : t ≠ u := by
        rintro rfl
        rw [hgone] at hu
        cases hu
      refine .inr ⟨hrest.gone ?_, rfl⟩
      rw [Config.advance_thread, Function.update_of_ne hne]
      exact hgone
  | cons a rest =>
      rw [hmid] at hpost
      obtain ⟨e, r⟩ := a
      obtain rfl : e = .nonceInsert key (wrapSucc b) := Phase.allowed_of_replied hpost.1
      have hmid' : acts t mid = [] ++ ⟨.nonceInsert key (wrapSucc b), r⟩ :: rest := hmid
      obtain ⟨m₁, m₂, rfl, -, -⟩ := acts_eq_append hmid'
      have hnone := ((guardedCalls_reachable hd h₂).query u _ _ _ _ hu).2
      rw [← List.cons_append, ← List.append_assoc] at h₂
      obtain ⟨z, hz⟩ := removed_since h₂ hnone
      refine .inl ⟨z, ?_⟩
      simp [hz]

end calls

section jobs

variable {ι W A : Type} [DecidableEq ι]

/-- Whatever tasks do with one client: in every state that they reach, guards are held around their calls as
`GuardedCalls` says. -/
theorem jobs_guardedCalls (cr : Crypto) (w : ℕ) (ep : Endpoint W A) (jobs : ι → List Job)
    (counters : CounterId → ℕ) (nonces : CacheKey → Option Nonce) (e : W)
    {tr : List (Event ι Op Op.Reply)} {c : Config ι (Shared ι W) Op Op.Reply Unit}
    (h : Run (machine w ep)
      (.start ⟨counters, nonces, .free, e⟩ fun t => Job.session cr (jobs t)) tr c) :
    GuardedCalls c :=
  guardedCalls_reachable (fun t => Job.session_disciplined cr (jobs t)) h

theorem jobs_guardedCalls_contention :
    ∃ tr c, Run (machine 64 anyEndpoint) (.start ⟨fun _ => 0, fun _ => none, .free, ()⟩ fun _ : ℕ =>
        Job.session .transparent [.fetchNonce ⟨"alice.near"⟩ ⟨[1]⟩]) tr c ∧
      AwaitsReply c 0 ∧ GuardedCalls c := by
  have hexec : ∃ tr c, (machine 64 anyEndpoint).exec [] (.start ⟨fun _ => 0, fun _ => none, .free, ()⟩
      fun _ : ℕ => Job.session .transparent [.fetchNonce ⟨"alice.near"⟩ ⟨[1]⟩]) contention =
        some (tr, c) ∧ AwaitsReply c 0 :=
    ⟨_, _, rfl, _, _, rfl⟩
  obtain ⟨tr, c, hexec, hawaits⟩ := hexec
  have hrun := Run.start.exec hexec
  exact ⟨tr, c, hrun, hawaits, jobs_guardedCalls _ _ _ _ _ _ _ hrun⟩

/-- Whatever tasks do with one client, from any contents of the cache: an access key whose query succeeded is
queried again only after its entry was removed, unless the task that had queried it was dropped before it
did anything more. -/
theorem jobs_query_once (cr : Crypto) (w : ℕ) (ep : Endpoint W A) (jobs : ι → List Job)
    (counters : CounterId → ℕ) (nonces : CacheKey → Option Nonce) (e : W)
    {c : Config ι (Shared ι W) Op Op.Reply Unit} {pre mid post : List (Event ι Op Op.Reply)}
    {t u : ι} {key : CacheKey} {reference reference' : BlockReference}
    {reply reply' : Except (JsonRpcError RpcQueryError) RpcQueryResponse} {b : Nonce}
    (h : Run (machine w ep) (.start ⟨counters, nonces, .free, e⟩ fun t => Job.session cr (jobs t))
      (pre ++ ⟨t, ⟨.rpc (.query reference (.viewAccessKey key.1 key.2)), reply⟩⟩ ::
        (mid ++ ⟨u, ⟨.rpc (.query reference' (.viewAccessKey key.1 key.2)), reply'⟩⟩ :: post)) c)
    (hb : reportedNonce reply = some b) :
    (∃ z, ⟨z, ⟨.nonceRemove key, ()⟩⟩ ∈ mid) ∨ c.thread t = none ∧ acts t mid = [] :=
  queried_anew (fun t => Job.session_disciplined cr (jobs t)) h hb

/-- A task looks a nonce up, removes the entry and looks a nonce up again. -/
def forgetfulJobs : List Job :=
  [.fetchNonce ⟨"alice.near"⟩ ⟨[1]⟩, .invalidateCache (⟨"alice.near"⟩, ⟨[1]⟩),
    .fetchNonce ⟨"alice.near"⟩ ⟨[1]⟩]

theorem jobs_query_once_forgetful :
    ∃ tr c, Run (machine 64 anyEndpoint) (.start ⟨fun _ => 0, fun _ => none, .free, ()⟩ fun _ : ℕ =>
        Job.session .transparent forgetfulJobs) tr c ∧
      ∃ pre mid reply reply', tr = pre ++
        ⟨0, ⟨.rpc (.query (.finality .none) (.viewAccessKey ⟨"alice.near"⟩ ⟨[1]⟩)), reply⟩⟩ ::
        (mid ++
          ⟨0, ⟨.rpc (.query (.finality .none) (.viewAccessKey ⟨"alice.near"⟩ ⟨[1]⟩)), reply'⟩⟩ :: []) ∧
      ((∃ z, ⟨z, ⟨.nonceRemove (⟨"alice.near"⟩, ⟨[1]⟩), ()⟩⟩ ∈ mid) ∨
        c.thread 0 = none ∧ acts 0 mid = []) := by
  have hexec : ∃ tr c reply reply', (machine 64 anyEndpoint).exec []
      (.start ⟨fun _ => 0, fun _ => none, .free, ()⟩ fun _ : ℕ =>
        Job.session .transparent forgetfulJobs)
      (List.replicate 23 (.act 0 (chainReplies 5 true))) = some (tr, c) ∧
      tr = tr.take 7 ++
        ⟨0, ⟨.rpc (.query (.finality .none) (.viewAccessKey ⟨"alice.near"⟩ ⟨[1]⟩)), reply⟩⟩ ::
        ((tr.drop 8).take 14 ++
          ⟨0, ⟨.rpc (.query (.finality .none) (.viewAccessKey ⟨"alice.near"⟩ ⟨[1]⟩)), reply'⟩⟩ :: []) ∧
      reportedNonce reply = some 5 :=
    ⟨_, _, _, _, rfl, rfl, rfl⟩
  obtain ⟨tr, c, reply, reply', hexec, htr, hreply⟩ := hexec
  have hrun := Run.start.exec hexec
  refine ⟨tr, c, hrun, _, _, reply, reply', htr, ?_⟩
  rw [htr] at hrun
  exact jobs_query_once _ _ _ _ _ _ _ hrun hreply

end jobs

end NearFetch
