import NearFetch.Lists
import NearFetch.NonceCounter
import NearFetch.HonestChain

/-! # When a nonce is handed out twice

A rejected transaction removes the entry of its key, and the next call of `fetch_nonce` reads the
nonce of the chain, although other tasks still hold greater nonces whose transactions have
not arrived.  So a nonce can be returned twice (`nonce_reused`), on an honest chain and with
no other user of the key.

This is the only way: between the two draws the entry was removed and read anew, when the nonce of
the chain was still below the one that is drawn again (`refetched_between`).  The counter gives
the removal and the insertion, and the freshness of the access-key reply puts the query
between the two. -/

namespace NearFetch

open Effects FifoLock TicketCounter

section reuse

variable {ι : Type}

/-- The nonces of `key` that successful calls of `fetch_nonce` returned, oldest first. -/
def returns (key : CacheKey) (tr : List (Event ι Op Op.Reply)) : List Nonce :=
  tr.filterMap fun ev => match ev.act with
    | ⟨.nonceReturned k result, _⟩ => if k = key then returnedNonce result else none
    | _ => none

/-- In the events `seg` the entry was removed, and after that the nonce `b` of the access key was
received; `before` are the events between the beginning of `seg` and that reply. -/
def Refetched (key : CacheKey) (b : Nonce) (before seg : List (Event ι Op Op.Reply)) : Prop :=
  ∃ t reference reply rest,
    seg = before ++ ⟨t, ⟨.rpc (.query reference (.viewAccessKey key.1 key.2)), reply⟩⟩ :: rest ∧
    reportedNonce reply = some b ∧ ∃ u, ⟨u, ⟨.nonceRemove key, ()⟩⟩ ∈ before

theorem labels_split {key : CacheKey} {pre seg post : List (Event ι Op Op.Reply)}
    {ev ev' : Event ι Op Op.Reply} {a a' : Label} (ha : entryLabel key ev.act = some a)
    (ha' : entryLabel key ev'.act = some a') :
    labels key (pre ++ ev :: (seg ++ ev' :: post)) =
      labels key pre ++ a :: (labels key (seg ++ [ev']) ++ labels key post) := by
  simp [labels_append, labels_cons, ha, ha']

variable {W A α : Type} [DecidableEq ι] {w : ℕ} {ep : Endpoint W A} {counters : CounterId → ℕ}
  {e₀ : W} {prog : ι → Task α} {tr : List (Event ι Op Op.Reply)}
  {c : Config ι (Shared ι W) Op Op.Reply α} {key : CacheKey} {v v' : Nonce}

/-- A task that is about to insert an entry received the nonce of the access key after the last
removal of that entry. -/
theorem fresh_after_removal (hd : ∀ t, Disciplined (prog t))
    {pre seg : List (Event ι Op Op.Reply)} {z s : ι} {u : Nonce}
    {k : Unit → Task α}
    (h : Run (machine w ep) (.start ⟨counters, fun _ => none, .free, e₀⟩ prog)
      (pre ++ ⟨z, ⟨.nonceRemove key, ()⟩⟩ :: seg) c)
    (hno : NoOverflow (pre ++ ⟨z, ⟨.nonceRemove key, ()⟩⟩ :: seg))
    (hs : c.thread s = some (.op (.nonceInsert key u) k)) :
    ∃ n reference reply seg₁ seg₂, u = n + 1 ∧ reportedNonce reply = some n ∧
      seg = seg₁ ++ ⟨s, ⟨.rpc (.query reference (.viewAccessKey key.1 key.2)), reply⟩⟩ :: seg₂ := by
  obtain ⟨n, hphase, hu⟩ := Phase.allowed_nonceInsert (h.follows hd hs).1
  have hghost : ghost nonceProtocol .idle (pre ++ ⟨z, ⟨.nonceRemove key, ()⟩⟩ :: seg) c s =
      some (.replied key n) := by
    rw [ghost_of_thread hs, hphase]
  obtain ⟨P, reference, reply, Q, hsplit, hn, hQ⟩ := (epochInv_reachable hd h).fresh s key n hghost
  rw [hsplit] at hno
  rw [wrapSucc_of_lt (hno.report (List.mem_append_right _ List.mem_cons_self) hn)] at hu
  rcases List.split_trichotomy hsplit with ⟨k, -, hseg⟩ | ⟨-, heq, -⟩ | ⟨k, -, hQ'⟩
  · exact ⟨n, reference, reply, k, Q, hu, hn, hseg⟩
  · cases heq
  · -- the removal cannot come after the reply
    have hlabel := hQ key
    rw [hQ', labels_append, labels_cons] at hlabel
    simp [entryLabel] at hlabel

/-- If a nonce is drawn that is not above one drawn before, then in between its entry was removed and
read anew below that nonce. -/
theorem refetched_of_le (hd : ∀ t, Disciplined (prog t)) {p seg q : List (Event ι Op Op.Reply)}
    {ev₁ ev₂ : Event ι Op Op.Reply}
    (h : Run (machine w ep) (.start ⟨counters, fun _ => none, .free, e₀⟩ prog)
      (p ++ ev₁ :: (seg ++ ev₂ :: q)) c)
    (hno : NoOverflow (p ++ ev₁ :: (seg ++ ev₂ :: q)))
    (h₁ : drawnNonce ev₁.act = some (key, v)) (h₂ : drawnNonce ev₂.act = some (key, v'))
    (hv : v' ≤ v) : ∃ n before, Refetched key n before seg ∧ n < v' := by
  obtain ⟨a, ha, hav⟩ := Option.bind_eq_some_iff.mp (ticket_entryLabel.mpr h₁)
  obtain ⟨b, hb, hbv⟩ := Option.bind_eq_some_iff.mp (ticket_entryLabel.mpr h₂)
  -- the counter was closed and opened again in between
  obtain ⟨st, hrun, -⟩ := (epochInv_reachable hd h).counter hno key
  rw [labels_split ha hb, ← List.cons_append, ← List.append_assoc] at hrun
  obtain ⟨st', hrun'⟩ := run_prefix hrun
  have hlast : labels key (seg ++ [ev₂]) = labels key seg ++ [b] := by
    rw [labels_concat, hb]
    rfl
  rw [hlast] at hrun'
  obtain ⟨m₁, m₂, u, m₃, hm, huv⟩ := repeated hrun' hav hbv hv
  rw [← hlast, List.append_assoc] at hm
  obtain ⟨A, evc, B, hA, -, hevc, hB⟩ := labels_eq_append hm
  obtain ⟨B₁, evo, B₂, rfl, -, hevo, -⟩ := labels_eq_append hB
  obtain ⟨z, rfl⟩ := entryLabel_closed hevc
  obtain ⟨s, rfl⟩ := entryLabel_opened hevo
  -- the task that opened it had queried the access key after the removal
  have htr : p ++ ev₁ :: (seg ++ ev₂ :: q) =
      (p ++ ev₁ :: A ++ ⟨z, ⟨.nonceRemove key, ()⟩⟩ :: B₁) ++
        ⟨s, ⟨.nonceInsert key u, ()⟩⟩ :: (B₂ ++ q) := by
    have hcons : seg ++ ev₂ :: q = (seg ++ [ev₂]) ++ q := by simp
    rw [hcons, hA]
    simp
  rw [htr] at h hno
  obtain ⟨c₁, k, ans, s', hrun₁, hthread, -, -⟩ := h.split
  obtain ⟨n, reference, reply, seg₁, seg₂, hu, hn, rfl⟩ :=
    fresh_after_removal hd hrun₁ hno.prefix hthread
  refine ⟨n, A ++ ⟨z, ⟨.nonceRemove key, ()⟩⟩ ::
    seg₁, ?_, Nat.lt_of_succ_le (hu.symm.trans_le huv)⟩
  -- the query is not the second draw, which the insertion does not come after
  have hseg : seg ++ [ev₂] = (A ++ ⟨z, ⟨.nonceRemove key, ()⟩⟩ :: seg₁) ++
      ⟨s, ⟨.rpc (.query reference (.viewAccessKey key.1 key.2)), reply⟩⟩ ::
        (seg₂ ++ ⟨s, ⟨.nonceInsert key u, ()⟩⟩ :: B₂) := by
    rw [hA]
    simp
  rcases List.split_trichotomy hseg with ⟨k', -, hnil⟩ | ⟨-, -, hnil⟩ | ⟨k', hseg', -⟩
  · simp at hnil
  · simp at hnil
  · exact ⟨s, reference, reply, k', hseg', hn, z, by simp⟩

theorem refetched_between (hd : ∀ t, Disciplined (prog t)) {p seg q : List (Event ι Op Op.Reply)}
    {ev₁ ev₂ : Event ι Op Op.Reply}
    (h : Run (machine w ep) (.start ⟨counters, fun _ => none, .free, e₀⟩ prog)
      (p ++ ev₁ :: (seg ++ ev₂ :: q)) c)
    (hno : NoOverflow (p ++ ev₁ :: (seg ++ ev₂ :: q)))
    (h₁ : drawnNonce ev₁.act = some (key, v)) (h₂ : drawnNonce ev₂.act = some (key, v)) :
    ∃ n before, Refetched key n before seg ∧ n < v := refetched_of_le hd h hno h₁ h₂ (Nat.le_refl v)

theorem draws_of_two_returns (hd : ∀ t, Disciplined (prog t)) {s₀ : Shared ι W}
    {pre mid post : List (Event ι Op Op.Reply)} {t u : ι}
    {r r' : Result (Nonce × CryptoHash × BlockHeight)}
    (h : Run (machine w ep) (.start s₀ prog)
      (pre ++ ⟨t, ⟨.nonceReturned key r, ()⟩⟩ :: (mid ++ ⟨u, ⟨.nonceReturned key r', ()⟩⟩ :: post)) c)
    (hr : returnedNonce r = some v) (hr' : returnedNonce r' = some v') :
    ∃ p ev₁ seg ev₂ q,
      pre ++ ⟨t, ⟨.nonceReturned key r, ()⟩⟩ ::
        (mid ++ ⟨u, ⟨.nonceReturned key r', ()⟩⟩ :: post) = p ++ ev₁ :: (seg ++ ev₂ :: q) ∧
      (ev₁.thread = t ∧ drawnNonce ev₁.act = some (key, v) ∧
          ev₂.thread = u ∧ drawnNonce ev₂.act = some (key, v') ∨
        t ≠ u ∧ ev₁.thread = u ∧ drawnNonce ev₁.act = some (key, v') ∧
          ev₂.thread = t ∧ drawnNonce ev₂.act = some (key, v)) := by
  obtain ⟨p₁, a, m₁, rfl, ha, -⟩ := atomicCounter_returned hd h hr
  have hcons : p₁ ++ ⟨t, a⟩ :: m₁ ++ ⟨t, ⟨.nonceReturned key r, ()⟩⟩ ::
      (mid ++ ⟨u, ⟨.nonceReturned key r', ()⟩⟩ :: post) =
        (p₁ ++ ⟨t, a⟩ :: (m₁ ++ ⟨t, ⟨.nonceReturned key r, ()⟩⟩ :: mid)) ++
          ⟨u, ⟨.nonceReturned key r', ()⟩⟩ :: post := by
    simp
  rw [hcons] at h ⊢
  obtain ⟨p₂, b, m₂, hsplit, hb, hquiet⟩ := atomicCounter_returned hd h hr'
  rcases List.split_trichotomy hsplit with ⟨k, -, hk⟩ | ⟨-, hev, hm⟩ | ⟨k, -, hk⟩
  · refine ⟨p₁, ⟨t, a⟩, k, ⟨u, b⟩, m₂ ++ ⟨u, ⟨.nonceReturned key r', ()⟩⟩ :: post, ?_,
      .inl ⟨rfl, ha, rfl, hb⟩⟩
    rw [hk]
    simp
  · -- one draw cannot stand behind both, for its task has returned in between
    cases hev
    have hmem : (⟨.nonceReturned key r, ()⟩ : Act Op Op.Reply) ∈ acts t m₂ := by
      rw [← hm, acts_append, acts_cons_self]
      simp
    cases (hquiet _ hmem).2
  · have hne : t ≠ u := by
      rintro rfl
      have hmem : a ∈ acts t m₂ := by
        rw [hk, acts_append, acts_cons_self]
        simp
      rw [(hquiet a hmem).1] at ha
      cases ha
    refine ⟨p₂, ⟨u, b⟩, k, ⟨t, a⟩, m₁ ++ ⟨t, ⟨.nonceReturned key r, ()⟩⟩ ::
      (mid ++ ⟨u, ⟨.nonceReturned key r', ()⟩⟩ :: post), ?_, .inr ⟨hne, rfl, hb, rfl, ha⟩⟩
    rw [hsplit, hk]
    simp

theorem draws_of_returns (hd : ∀ t, Disciplined (prog t)) {s₀ : Shared ι W}
    {pre mid post : List (Event ι Op Op.Reply)} {t u : ι}
    {r r' : Result (Nonce × CryptoHash × BlockHeight)}
    (h : Run (machine w ep) (.start s₀ prog)
      (pre ++ ⟨t, ⟨.nonceReturned key r, ()⟩⟩ :: (mid ++ ⟨u, ⟨.nonceReturned key r', ()⟩⟩ :: post)) c)
    (hr : returnedNonce r = some v) (hr' : returnedNonce r' = some v) :
    ∃ p ev₁ seg ev₂ q,
      pre ++ ⟨t, ⟨.nonceReturned key r, ()⟩⟩ ::
        (mid ++ ⟨u, ⟨.nonceReturned key r', ()⟩⟩ :: post) = p ++ ev₁ :: (seg ++ ev₂ :: q) ∧
      drawnNonce ev₁.act = some (key, v) ∧ drawnNonce ev₂.act = some (key, v) ∧
      (ev₁.thread = t ∧ ev₂.thread = u ∨ ev₁.thread = u ∧ ev₂.thread = t) := by
  obtain ⟨p, ev₁, seg, ev₂, q, htr, ⟨ht, h₁, hu, h₂⟩ | ⟨-, hu, h₁, ht, h₂⟩⟩ :=
    draws_of_two_returns hd h hr hr'
  · exact ⟨p, ev₁, seg, ev₂, q, htr, h₁, h₂, .inl ⟨ht, hu⟩⟩
  · exact ⟨p, ev₁, seg, ev₂, q, htr, h₁, h₂, .inr ⟨hu, ht⟩⟩

theorem reported_of_honest {ch ch' : Chain} {reference : BlockReference}
    {reply : Except (JsonRpcError RpcQueryError) RpcQueryResponse} {n : Nonce}
    (h : honestChain.serve ch (.query reference (.viewAccessKey key.1 key.2)) reply = some ch')
    (hn : reportedNonce reply = some n) : ch.nonces key = n := by
  simp only [honestChain, hn] at h
  split at h
  · rename_i heq
    exact heq.symm
  · cases h

/-- On an honest chain, when two calls of `fetch_nonce` return the same nonce of a key, then
between the draws the entry was removed and read anew, while the nonce on the chain was
still below the one that is drawn again. -/
theorem nonce_repeated_only_if_refetched (cr : Crypto) (w : ℕ) (calls : ι → List ClientCall)
    (counters : CounterId → ℕ) (ch : Chain) {c : Config ι (Shared ι Chain) Op Op.Reply Unit}
    {pre mid post : List (Event ι Op Op.Reply)} {t u : ι} {key : CacheKey}
    {r r' : Result (Nonce × CryptoHash × BlockHeight)} {v : Nonce}
    (h : Run (machine w honestChain)
      (.start ⟨counters, fun _ => none, .free, ch⟩ fun t => ClientCall.session cr (calls t))
      (pre ++ ⟨t, ⟨.nonceReturned key r, ()⟩⟩ :: (mid ++ ⟨u, ⟨.nonceReturned key r', ()⟩⟩ :: post)) c)
    (hno : NoOverflow
      (pre ++ ⟨t, ⟨.nonceReturned key r, ()⟩⟩ :: (mid ++ ⟨u, ⟨.nonceReturned key r', ()⟩⟩ :: post)))
    (hr : returnedNonce r = some v) (hr' : returnedNonce r' = some v) :
    ∃ p ev₁ seg ev₂ q n before c',
      pre ++ ⟨t, ⟨.nonceReturned key r, ()⟩⟩ ::
        (mid ++ ⟨u, ⟨.nonceReturned key r', ()⟩⟩ :: post) = p ++ ev₁ :: (seg ++ ev₂ :: q) ∧
      drawnNonce ev₁.act = some (key, v) ∧ drawnNonce ev₂.act = some (key, v) ∧
      (ev₁.thread = t ∧ ev₂.thread = u ∨ ev₁.thread = u ∧ ev₂.thread = t) ∧
      Refetched key n before seg ∧ n < v ∧
      Run (machine w honestChain)
        (.start ⟨counters, fun _ => none, .free, ch⟩ fun t => ClientCall.session cr (calls t))
        (p ++ ev₁ :: before) c' ∧
      c'.shared.endpoint.nonces key = n := by
  have hd : ∀ t, Disciplined (ClientCall.session cr (calls t)) := fun t =>
    ClientCall.session_disciplined cr (calls t)
  obtain ⟨p, ev₁, seg, ev₂, q, htr, h₁, h₂, hthreads⟩ := draws_of_returns hd h hr hr'
  rw [htr] at h hno
  obtain ⟨n, before, href, hlt⟩ := refetched_between hd h hno h₁ h₂
  obtain ⟨s, reference, reply, rest, rfl, hn, hremoved⟩ := id href
  -- the state in which the chain answered the query
  have hcons : p ++ ev₁ :: (before ++ ⟨s, ⟨.rpc (.query reference (.viewAccessKey key.1 key.2)),
      reply⟩⟩ :: rest ++ ev₂ :: q) = (p ++ ev₁ :: before) ++
        ⟨s, ⟨.rpc (.query reference (.viewAccessKey key.1 key.2)), reply⟩⟩ ::
          (rest ++ ev₂ :: q) := by
    simp
  rw [hcons] at h
  obtain ⟨c', ch', hrun, hch⟩ := run_served h
  exact ⟨p, ev₁, _, ev₂, q, n, before, c', htr, h₁, h₂, hthreads, href, hlt, hrun,
    reported_of_honest hch hn⟩

end reuse

/-! ### A nonce that is returned twice -/

section collision

/-- Alice's key, which all four tasks use. -/
def alice : InMemorySigner := ⟨⟨"alice.near"⟩, ⟨[1]⟩, ⟨[1]⟩⟩

/-- Two transactions and two further calls of `fetch_nonce`. -/
def collidingCalls : ℕ → List ClientCall
  | 0 => [.sendTxOnce (alice.ext .transparent) ⟨"bob.near"⟩ [.transfer 1] .executedOptimistic]
  | 1 => [.sendTxOnce (alice.ext .transparent) ⟨"carol.near"⟩ [.transfer 1] .executedOptimistic]
  | _ => [.fetchNonce alice.accountId alice.publicKey]

/-- The replies of the chain when the nonce of Alice's key is `n` and it accepts the
transactions that it is sent, or rejects them. -/
def chainReplies (n : Nonce) (accepts : Bool) : (e : Op) → Option e.Reply :=
  replies fun call => match call with
    | .block _ => .ok ⟨⟨⟨[7]⟩, 7⟩⟩
    | .query _ _ => .ok ⟨.accessKey ⟨n, .fullAccess⟩, ⟨[7]⟩, 7⟩
    | .gasPrice _ => .error (.transportError "closed")
    | .chunk _ => .error (.transportError "closed")
    | .sendTx stx _ => if accepts = true then .ok ⟨none, .executedOptimistic⟩ else
        .error (.serverError (.handlerError (.invalidTransaction
          (.invalidNonce stx.transaction.nonce n))))
    | .tx _ _ _ => .error (.transportError "closed")

/-- Tasks 0, 1 and 2 draw 1, 2 and 3; the transaction with nonce 2 arrives before the one with
nonce 1, which is rejected; task 0 removes the entry, and task 3 draws 3 again. -/
def collision : List (Move ℕ (CacheKey × Nonce) Op Op.Reply) :=
  List.replicate 11 (.act 0 (chainReplies 0 true)) ++
    List.replicate 7 (.act 1 (chainReplies 0 true)) ++
    List.replicate 7 (.act 2 (chainReplies 0 true)) ++
    [.act 1 (chainReplies 0 true)] ++
    List.replicate 5 (.act 0 (chainReplies 2 false)) ++
    List.replicate 11 (.act 3 (chainReplies 2 true))

/-- Four calls on an honest chain, none of which removes an entry by itself, and the nonce 3 is
returned twice. -/
theorem nonce_reused :
    (∀ t, ∀ call ∈ collidingCalls t, ∀ key, call ≠ .invalidateCache key) ∧
      ∃ tr c, Run (machine 64 honestChain)
        (.start ⟨fun _ => 0, fun _ => none, .free, ⟨fun _ => 0, [], []⟩⟩ fun t =>
          ClientCall.session .transparent (collidingCalls t)) tr c ∧
        NoOverflow tr ∧ ¬ (returns (alice.accountId, alice.publicKey) tr).Nodup := by
  refine ⟨?_, ?_⟩
  · intro t call hcall key
    match t with
    | 0 => rw [List.mem_singleton.mp hcall]; simp
    | 1 => rw [List.mem_singleton.mp hcall]; simp
    | t + 2 => rw [List.mem_singleton.mp hcall]; simp
  · have hexec : ∃ tr c, (machine 64 honestChain).exec []
        (.start ⟨fun _ => 0, fun _ => none, .free, ⟨fun _ => 0, [], []⟩⟩ fun t =>
          ClientCall.session .transparent (collidingCalls t)) collision = some (tr, c) ∧
          NoOverflow tr ∧ returns (alice.accountId, alice.publicKey) tr = [1, 2, 3, 3] :=
      ⟨_, _, rfl, by unfold NoOverflow; decide, rfl⟩
    obtain ⟨tr, c, hexec, hno, hreturns⟩ := hexec
    refine ⟨tr, c, Run.start.exec hexec, hno, ?_⟩
    rw [hreturns]
    decide

theorem nonce_repeated_only_if_refetched_collision :
    ∃ tr c, Run (machine 64 honestChain)
        (.start ⟨fun _ => 0, fun _ => none, .free, ⟨fun _ => 0, [], []⟩⟩ fun t =>
          ClientCall.session .transparent (collidingCalls t)) tr c ∧
      ∃ p ev₁ seg ev₂ q n before, tr = p ++ ev₁ :: (seg ++ ev₂ :: q) ∧
        drawnNonce ev₁.act = some ((alice.accountId, alice.publicKey), 3) ∧
        drawnNonce ev₂.act = some ((alice.accountId, alice.publicKey), 3) ∧
        Refetched (alice.accountId, alice.publicKey) n before seg ∧ n < 3 := by
  have hexec : ∃ tr c, (machine 64 honestChain).exec []
      (.start ⟨fun _ => 0, fun _ => none, .free, ⟨fun _ => 0, [], []⟩⟩ fun t =>
        ClientCall.session .transparent (collidingCalls t)) collision = some (tr, c) ∧
        NoOverflow tr ∧
        tr = tr.take 24 ++
          ⟨2, ⟨.nonceReturned (alice.accountId, alice.publicKey) (.ok (3, ⟨[7]⟩, 7)), ()⟩⟩ ::
          ((tr.drop 25).take 16 ++
            ⟨3, ⟨.nonceReturned (alice.accountId, alice.publicKey) (.ok (3, ⟨[7]⟩, 7)), ()⟩⟩ :: []) :=
    ⟨_, _, rfl, by unfold NoOverflow; decide, rfl⟩
  obtain ⟨tr, c, hexec, hno, htr⟩ := hexec
  have hrun := Run.start.exec hexec
  have hrun' := hrun
  rw [htr] at hrun' hno
  obtain ⟨p, ev₁, seg, ev₂, q, n, before, c', hsplit, h₁, h₂, -, href, hlt, -, -⟩ :=
    nonce_repeated_only_if_refetched _ _ _ _ _ hrun' hno rfl rfl
  exact ⟨tr, c, hrun, p, ev₁, seg, ev₂, q, n, before, htr.trans hsplit, h₁, h₂, href, hlt⟩

end collision

end NearFetch
