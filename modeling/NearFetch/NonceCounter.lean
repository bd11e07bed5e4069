import NearFetch.CacheLookup
import NearFetch.NonceEpochs

/-! # The nonce cache as an atomic counter

`AtomicCounter` says, for one key and one reachable state, what it means that the cache behaves
as one atomic counter: the history is a run of the counter, each epoch begins with one insertion
made from an access-key reply and its nonces are consecutive, calls return what they drew,
and a failed or cancelled query leaves nothing behind.  `nonceCache_atomicCounter` proves it for
every run. -/

namespace NearFetch

open Effects FifoLock TicketCounter

/-- The cache behaves, for one key, as an atomic counter; `tr` is the trace and `c` the state
that was reached. -/
structure AtomicCounter {ι W α : Type} [DecidableEq ι] (key : CacheKey)
    (tr : List (Event ι Op Op.Reply)) (c : Config ι (Shared ι W) Op Op.Reply α) : Prop where
  /-- What happened to the entry is a run of the counter. -/
  refines : ∃ st, run none (labels key tr) = some st ∧ c.shared.nonces key = st.map Epoch.last
  /-- An entry is inserted by a task whose last effect was a successful access-key query. -/
  inserted : ∀ pre t v post, tr = pre ++ ⟨t, ⟨.nonceInsert key v, ()⟩⟩ :: post →
    ∃ l reference reply b,
      acts t pre = l ++ [⟨.rpc (.query reference (.viewAccessKey key.1 key.2)), reply⟩] ∧
      reportedNonce reply = some b ∧ v = b + 1
  /-- Until the entry is removed there is no other insertion, and the nonces drawn are
  consecutive. -/
  epoch : ∀ pre t v seg post, tr = pre ++ ⟨t, ⟨.nonceInsert key v, ()⟩⟩ :: (seg ++ post) →
    .closed ∉ labels key seg → (∀ u, .opened u ∉ labels key seg) ∧
      v :: tickets (labels key seg) = List.range' v (1 + (tickets (labels key seg)).length)
  /-- The entry is the nonce drawn last. -/
  entry : ∀ pre t v seg, tr = pre ++ ⟨t, ⟨.nonceInsert key v, ()⟩⟩ :: seg →
    .closed ∉ labels key seg →
    c.shared.nonces key = (v :: tickets (labels key seg)).getLast?
  /-- An entry that is there was inserted and not removed since. -/
  present : ∀ n, c.shared.nonces key = some n → ∃ pre t v seg,
    tr = pre ++ ⟨t, ⟨.nonceInsert key v, ()⟩⟩ :: seg ∧ .closed ∉ labels key seg
  /-- A nonce is drawn by an increment only after an insertion and before the next removal. -/
  incremented : ∀ pre t n post, tr = pre ++ ⟨t, ⟨.nonceFetchAdd key, n⟩⟩ :: post →
    ∃ pre' u v seg, pre = pre' ++ ⟨u, ⟨.nonceInsert key v, ()⟩⟩ :: seg ∧ .closed ∉ labels key seg
  /-- A successful call returns the nonce that it drew. -/
  returned : ∀ pre t result post v, tr = pre ++ ⟨t, ⟨.nonceReturned key result, ()⟩⟩ :: post →
    returnedNonce result = some v → ∃ pre' a mid, pre = pre' ++ ⟨t, a⟩ :: mid ∧
      drawnNonce a = some (key, v) ∧ Quiet (acts t mid)
  /-- A nonce that was drawn is returned, unless `view_block` fails, the task is cancelled or the
  call has not ended. -/
  unreturned : ∀ pre t a post v, tr = pre ++ ⟨t, a⟩ :: post → drawnNonce a = some (key, v) →
    (∃ l₁ result l₂, acts t post = l₁ ++ ⟨.nonceReturned key result, ()⟩ :: l₂ ∧ Quiet l₁ ∧
        returnedNonce result = some v) ∨
      (∃ l₁ reference err l₂,
        acts t post = l₁ ++ ⟨.rpc (.block reference), .error err⟩ :: l₂ ∧ Quiet l₁) ∨
      (Quiet (acts t post) ∧ (c.thread t = none ∨ ∃ e k, c.thread t = some (.op e k)))
  /-- While the access key is queried the entry is absent, and it stays so if the task is
  cancelled there. -/
  querying : ∀ t reference k,
    c.thread t = some (.op (.rpc (.query reference (.viewAccessKey key.1 key.2))) k) →
    c.shared.nonces key = none ∧
      ({ c.shared with lock := c.shared.lock.discard t } : Shared ι W).nonces key = none
  /-- After a query that failed the entry is absent. -/
  failed : ∀ pre t reference reply,
    tr = pre ++ [⟨t, ⟨.rpc (.query reference (.viewAccessKey key.1 key.2)), reply⟩⟩] →
    reportedNonce reply = none → c.shared.nonces key = none
  /-- No task is about to remove the entry while some task waits for `view_block`. -/
  closing : ∀ t k u reference k', c.thread t = some (.op (.nonceRemove key) k) →
    c.thread u ≠ some (.op (.rpc (.block reference)) k')

section atomic

variable {ι W A α : Type} [DecidableEq ι] {w : ℕ} {ep : Endpoint W A} {counters : CounterId → ℕ}
  {e₀ : W} {prog : ι → Task α} {tr : List (Event ι Op Op.Reply)}
  {c : Config ι (Shared ι W) Op Op.Reply α} {key : CacheKey}

theorem atomicCounter_inserted (hd : ∀ t, Disciplined (prog t)) {s₀ : Shared ι W}
    {pre post : List (Event ι Op Op.Reply)} {t : ι} {v : Nonce}
    (h : Run (machine w ep) (.start s₀ prog)
      (pre ++ ⟨t, ⟨.nonceInsert key v, ()⟩⟩ :: post) c)
    (hno : NoOverflow (pre ++ ⟨t, ⟨.nonceInsert key v, ()⟩⟩ :: post)) :
    ∃ l reference reply b,
      acts t pre = l ++ [⟨.rpc (.query reference (.viewAccessKey key.1 key.2)), reply⟩] ∧
      reportedNonce reply = some b ∧ v = b + 1 := by
  obtain ⟨ho, ha, -⟩ := h.obeys_event hd
  obtain ⟨b, hb, hv⟩ := Phase.allowed_nonceInsert ha
  obtain ⟨l, reference, reply, hl, hreply⟩ := replied_after ho hb
  have hmem : (⟨t, ⟨.rpc (.query reference (.viewAccessKey key.1 key.2)), reply⟩⟩ :
      Event ι Op Op.Reply) ∈ pre := by
    rw [← mem_acts, hl]
    simp
  have hlt := hno.report (List.mem_append_left _ hmem) hreply
  exact ⟨l, reference, reply, b, hl, hreply, by rw [hv, wrapSucc_of_lt hlt]⟩

theorem atomicCounter_returned (hd : ∀ t, Disciplined (prog t)) {s₀ : Shared ι W}
    {pre post : List (Event ι Op Op.Reply)} {t : ι}
    {result : Result (Nonce × CryptoHash × BlockHeight)} {v : Nonce}
    (h : Run (machine w ep) (.start s₀ prog)
      (pre ++ ⟨t, ⟨.nonceReturned key result, ()⟩⟩ :: post) c)
    (hv : returnedNonce result = some v) :
    ∃ pre' a mid, pre = pre' ++ ⟨t, a⟩ :: mid ∧ drawnNonce a = some (key, v) ∧
      Quiet (acts t mid) := by
  obtain ⟨ho, ha, -⟩ := h.obeys_event hd
  have hphase := Phase.allowed_nonceReturned ha
  have hpend : (nonceProtocol.after .idle (acts t pre)).pending = some (key, v) := by
    rw [hphase, hv]
    rfl
  obtain ⟨l₁, a, l₂, hl, hdraw, hquiet⟩ := pending_drawn ho hpend
  obtain ⟨pre', mid, hpre, -, hmid⟩ := acts_eq_append hl
  exact ⟨pre', a, mid, hpre, hdraw, hmid ▸ hquiet⟩

theorem atomicCounter_unreturned (hd : ∀ t, Disciplined (prog t)) {s₀ : Shared ι W}
    {pre post : List (Event ι Op Op.Reply)} {t : ι} {a : Act Op Op.Reply} {v : Nonce}
    (h : Run (machine w ep) (.start s₀ prog) (pre ++ ⟨t, a⟩ :: post) c)
    (hdraw : drawnNonce a = some (key, v)) :
    (∃ l₁ result l₂, acts t post = l₁ ++ ⟨.nonceReturned key result, ()⟩ :: l₂ ∧ Quiet l₁ ∧
        returnedNonce result = some v) ∨
      (∃ l₁ reference err l₂,
        acts t post = l₁ ++ ⟨.rpc (.block reference), .error err⟩ :: l₂ ∧ Quiet l₁) ∨
      (Quiet (acts t post) ∧ (c.thread t = none ∨ ∃ e k, c.thread t = some (.op e k))) := by
  obtain ⟨-, ha, hpost⟩ := h.obeys_event hd
  have hpend := Phase.pending_of_draw ha hdraw
  rcases fate hpend hpost with hret | hfail | ⟨hquiet, hkept⟩
  · exact .inl hret
  · exact .inr (.inl hfail)
  · refine .inr (.inr ⟨hquiet, ?_⟩)
    cases ht : c.thread t with
    | none => exact .inl rfl
    | some q =>
        -- outside, where alone a task may end or panic, it has no nonce in hand
        have hfol := h.follows hd ht
        have hafter : (nonceProtocol.after .idle
            (acts t (pre ++ ⟨t, a⟩ :: post))).pending = some (key, v) := by
          rw [acts_append, acts_cons_self, Protocol.after_append]
          exact hkept
        cases q with
        | op e k => exact .inr ⟨e, k, rfl⟩
        | pure x =>
            rw [show nonceProtocol.after .idle (acts t (pre ++ ⟨t, a⟩ :: post)) = Phase.idle
              from hfol] at hafter
            cases hafter
        | panic msg =>
            rw [show nonceProtocol.after .idle (acts t (pre ++ ⟨t, a⟩ :: post)) = Phase.idle
              from hfol] at hafter
            cases hafter

theorem absent_querying (hd : ∀ t, Disciplined (prog t))
    (h : Run (machine w ep) (.start ⟨counters, fun _ => none, .free, e₀⟩ prog) tr c) {t : ι}
    {reference : BlockReference} {k : Except (JsonRpcError RpcQueryError) RpcQueryResponse → Task α}
    (ht : c.thread t = some (.op (.rpc (.query reference (.viewAccessKey key.1 key.2))) k)) :
    c.shared.nonces key = none := by
  have hphase := Phase.allowed_viewAccessKey (h.follows hd ht).1
  have hknows := (epochInv_reachable hd h).cache.knows t _ key false (ghost_of_thread ht)
    (by rw [hphase]; rfl)
  simpa using hknows

theorem absent_failed (hd : ∀ t, Disciplined (prog t)) {pre : List (Event ι Op Op.Reply)} {t : ι}
    {reference : BlockReference} {reply : Except (JsonRpcError RpcQueryError) RpcQueryResponse}
    (h : Run (machine w ep) (.start ⟨counters, fun _ => none, .free, e₀⟩ prog)
      (pre ++ [⟨t, ⟨.rpc (.query reference (.viewAccessKey key.1 key.2)), reply⟩⟩]) c)
    (hno : NoOverflow (pre ++ [(⟨t, ⟨.rpc (.query reference (.viewAccessKey key.1 key.2)),
      reply⟩⟩ : Event ι Op Op.Reply)])) :
    c.shared.nonces key = none := by
  obtain ⟨c₁, k, ans, s, h₁, ht, -, -⟩ := Run.split h
  have hnone := absent_querying hd h₁ ht
  obtain ⟨st₁, hrun₁, hent₁⟩ := (epochInv_reachable hd h₁).counter hno.prefix key
  obtain ⟨st, hrun, hent⟩ := (epochInv_reachable hd h).counter hno key
  have hsame : labels key (pre ++ [(⟨t, ⟨.rpc (.query reference (.viewAccessKey key.1 key.2)),
      reply⟩⟩ : Event ι Op Op.Reply)]) = labels key pre := by
    rw [labels_concat]
    simp [entryLabel]
  rw [hsame, hrun₁] at hrun
  rw [hent, ← Option.some.inj hrun, ← hent₁, hnone]

/-- A task that is about to remove an entry is alone with the map. -/
theorem not_block_of_remove (hd : ∀ t, Disciplined (prog t))
    (h : Run (machine w ep) (.start ⟨counters, fun _ => none, .free, e₀⟩ prog) tr c) {t u : ι}
    {reference : BlockReference} {k : Unit → Task α}
    {k' : Except (JsonRpcError RpcBlockError) BlockView → Task α}
    (ht : c.thread t = some (.op (.nonceRemove key) k)) :
    c.thread u ≠ some (.op (.rpc (.block reference)) k') := by
  intro hu
  have hlock := (epochInv_reachable hd h).cache.lock
  have hremove := Phase.allowed_nonceRemove (h.follows hd ht).1
  obtain ⟨m, key', v, hblock⟩ := Phase.allowed_block (h.follows hd hu).1
  have hst : standings (ghost nonceProtocol .idle tr c) t = .holds .write := by
    rw [standings_of_eq (ghost_of_thread ht), hremove]
    rfl
  have hsu : standings (ghost nonceProtocol .idle tr c) u = .holds m := by
    rw [standings_of_eq (ghost_of_thread hu), hblock]
    rfl
  obtain rfl := hlock.alone hst hsu
  rw [ht] at hu
  cases hu

/-- The nonce cache behaves per key as one atomic counter, in every run of any tasks on clones
of one client in which no nonce overflows. -/
theorem nonceCache_atomicCounter (cr : Crypto) (w : ℕ) (ep : Endpoint W A)
    (calls : ι → List ClientCall) (counters : CounterId → ℕ) (e : W)
    {tr : List (Event ι Op Op.Reply)} {c : Config ι (Shared ι W) Op Op.Reply Unit}
    (h : Run (machine w ep) (.start ⟨counters, fun _ => none, .free, e⟩ fun t =>
      ClientCall.session cr (calls t)) tr c) (hno : NoOverflow tr) (key : CacheKey) :
    AtomicCounter key tr c := by
  have hd : ∀ t, Disciplined (ClientCall.session cr (calls t)) := fun t =>
    ClientCall.session_disciplined cr (calls t)
  have htracks := (epochInv_reachable hd h).counter hno key
  obtain ⟨st, hrun, hent⟩ := id htracks
  exact
    { refines := htracks
      inserted := by
        rintro pre t v post rfl
        exact atomicCounter_inserted hd h hno
      epoch := by
        rintro pre t v seg post rfl hc
        exact labels_epoch hrun hc
      entry := by
        rintro pre t v seg rfl hc
        exact labels_entry htracks hc
      present := by
        intro n hn
        rw [hent] at hn
        obtain ⟨ep, rfl, -⟩ := Option.map_eq_some_iff.mp hn
        exact labels_open hrun
      incremented := by
        rintro pre t n post rfl
        exact labels_incremented hrun
      returned := by
        rintro pre t result post v rfl hv
        exact atomicCounter_returned hd h hv
      unreturned := by
        rintro pre t a post v rfl hdraw
        exact atomicCounter_unreturned hd h hdraw
      querying := by
        intro t reference k ht
        have hnone := absent_querying hd h ht
        exact ⟨hnone, hnone⟩
      failed := by
        rintro pre t reference reply rfl _
        exact absent_failed hd h hno
      closing := by
        intro t k u reference k' ht
        exact not_block_of_remove hd h ht }

/-- A schedule of two calls of `fetch_nonce`: the first reads the nonce 5 from the chain and
returns 6, and the second has drawn 7 and waits for `view_block`. -/
def twoDraws : List (Move ℕ Empty Op Op.Reply) :=
  let chain := replies fun call => match call with
    | .block _ => .ok ⟨⟨⟨[2]⟩, 2⟩⟩
    | .query _ _ => .ok ⟨.accessKey ⟨5, .fullAccess⟩, ⟨[1]⟩, 1⟩
    | .gasPrice _ => .error (.transportError "closed")
    | .chunk _ => .error (.transportError "closed")
    | .sendTx _ _ => .error (.transportError "closed")
    | .tx _ _ _ => .error (.transportError "closed")
  List.replicate 11 (.act 0 chain) ++ List.replicate 4 (.act 1 chain)

theorem nonceCache_atomicCounter_twoDraws :
    ∃ tr c, Run (machine 64 anyEndpoint) (.start ⟨fun _ => 0, fun _ => none, .free, ()⟩ fun _ : ℕ =>
        ClientCall.session .transparent [.fetchNonce ⟨"alice.near"⟩ ⟨[1]⟩]) tr c ∧
      AtomicCounter (⟨"alice.near"⟩, ⟨[1]⟩) tr c ∧
      c.shared.nonces (⟨"alice.near"⟩, ⟨[1]⟩) = some 7 := by
  have hexec : ∃ tr c, (machine 64 anyEndpoint).exec [] (.start ⟨fun _ => 0, fun _ => none, .free, ()⟩
      fun _ : ℕ => ClientCall.session .transparent [.fetchNonce ⟨"alice.near"⟩ ⟨[1]⟩]) twoDraws =
        some (tr, c) ∧ NoOverflow tr ∧ c.shared.nonces (⟨"alice.near"⟩, ⟨[1]⟩) = some 7 :=
    ⟨_, _, rfl, by unfold NoOverflow; decide, rfl⟩
  obtain ⟨tr, c, hexec, hno, hentry⟩ := hexec
  have hrun := Run.start.exec hexec
  exact ⟨tr, c, hrun, nonceCache_atomicCounter _ _ _ _ _ _ hrun hno _, hentry⟩

end atomic

end NearFetch
