import NearFetch.CacheHealing

/-! # What stale entries cost a session

A rejection removes the entry of a stale key, and nothing that the client does alone with an honest chain makes
a key stale.  The number of stale keys (`staleKeys`) is therefore a potential that pays for every rejection of a
whole session, not only for those of one transaction: `Advances` says so of a stretch of a session, and
composes.

A session of retried transactions is thus rejected at most once for each key that is stale when it begins,
however few retries its transactions have, and a transaction fails only if each of its attempts is one of
these rejections (`session_heals`). -/

namespace NearFetch

open Effects FifoLock

/-- Neither the entry of the key nor its nonce on the chain is within `n` of the last one. -/
structure RoomFor (n : ℕ) (nonces : CacheKey → Option Nonce) (ch : Chain) (key : CacheKey) : Prop where
  entry : ∀ v, nonces key = some v → v + n < 2 ^ 64
  chain : ch.nonces key + n < 2 ^ 64

section nonces

variable {keys : Finset CacheKey} {nonces : CacheKey → Option Nonce} {ch : Chain} {key k : CacheKey}
  {n m : ℕ}

theorem RoomFor.mono (h : RoomFor m nonces ch key) (hle : n ≤ m) : RoomFor n nonces ch key :=
  ⟨fun v hv => (Nat.add_le_add_left hle v).trans_lt (h.entry v hv),
    (Nat.add_le_add_left hle _).trans_lt h.chain⟩

theorem RoomFor.room (h : RoomFor (n + 1) nonces ch key) : Room nonces ch key :=
  have h₁ : RoomFor 1 nonces ch key := h.mono (by omega)
  ⟨h₁.entry, h₁.chain⟩

theorem RoomFor.removed (stx : SignedTransaction) (h : RoomFor n nonces ch k) :
    RoomFor n (Function.update nonces key none) (ch.reject stx) k := by
  refine ⟨fun v hv => ?_, h.chain⟩
  by_cases heq : k = key
  · subst heq
    simp at hv
  · rw [Function.update_of_ne heq] at hv
    exact h.entry v hv

theorem nextNonce_eq (h : Room nonces ch key) :
    nextNonce nonces ch key = (nonces key).getD (ch.nonces key) + 1 := by
  unfold nextNonce
  cases hv : nonces key with
  | none => exact wrapSucc_of_lt h.chain
  | some v => exact wrapSucc_of_lt (h.entry v hv)

theorem accept_nonces (ch : Chain) (stx : SignedTransaction) : (ch.accept stx).nonces =
    Function.update ch.nonces stx.transaction.key stx.transaction.nonce := rfl

theorem RoomFor.accepted {stx : SignedTransaction} (hkey : stx.transaction.key = key)
    (hnonce : stx.transaction.nonce = nextNonce nonces ch key)
    (hroom : RoomFor (n + 1) nonces ch key) (h : RoomFor (n + 1) nonces ch k) :
    RoomFor n (Function.update nonces key (some (nextNonce nonces ch key))) (ch.accept stx) k := by
  by_cases heq : k = key
  · subst heq
    have hlt : nextNonce nonces ch k + n < 2 ^ 64 := by
      rw [nextNonce_eq hroom.room, Nat.add_assoc, Nat.add_comm 1 n]
      cases hv : nonces k with
      | none => exact hroom.chain
      | some v => exact hroom.entry v hv
    refine ⟨fun v hv => ?_, ?_⟩
    · rw [Function.update_self] at hv
      cases hv
      exact hlt
    · rw [accept_nonces, hkey, Function.update_self, hnonce]
      exact hlt
  · have h' := h.mono (Nat.le_succ n)
    refine ⟨fun v hv => ?_, ?_⟩
    · rw [Function.update_of_ne heq] at hv
      exact h'.entry v hv
    · rw [accept_nonces, hkey, Function.update_of_ne heq]
      exact h'.chain

theorem staleKeys_accepted {stx : SignedTransaction} {v : Nonce} (hkey : stx.transaction.key = key)
    (hnonce : stx.transaction.nonce = v) :
    staleKeys keys (Function.update nonces key (some v)) (ch.accept stx) ⊆
      staleKeys keys nonces ch := by
  intro k hk
  obtain ⟨hmem, hstale⟩ := Finset.mem_filter.mp hk
  refine Finset.mem_filter.mpr ⟨hmem, ?_⟩
  unfold stale at hstale ⊢
  by_cases heq : k = key
  · subst heq
    simp [accept_nonces, hkey, hnonce] at hstale
  · simpa [accept_nonces, hkey, Function.update_of_ne heq] using hstale

end nonces

section sessions

variable {ι : Type}

/-- A stretch of a session: the transactions `won` were accepted and `lost` rejected in it, the former took
room, and the stale keys paid for the latter. -/
structure Advances (keys : Finset CacheKey) (s s' : Shared ι Chain)
    (won lost : List SignedTransaction) : Prop where
  lock : s'.lock = .free
  accepted : s'.endpoint.accepted = s.endpoint.accepted ++ won
  rejected : s'.endpoint.rejected = s.endpoint.rejected ++ lost
  room : ∀ n, (∀ key ∈ keys, RoomFor (n + won.length) s.nonces s.endpoint key) →
    ∀ key ∈ keys, RoomFor n s'.nonces s'.endpoint key
  paid : lost.length + (staleKeys keys s'.nonces s'.endpoint).card ≤
    (staleKeys keys s.nonces s.endpoint).card

namespace Advances

variable {keys : Finset CacheKey} {s s₁ s' : Shared ι Chain}
  {won won' lost lost' : List SignedTransaction}

theorem refl (hlock : s.lock = .free) : Advances keys s s [] [] where
  lock := hlock
  accepted := (List.append_nil _).symm
  rejected := (List.append_nil _).symm
  room _ h := h
  paid := by simp

theorem trans (h : Advances keys s s₁ won lost) (h' : Advances keys s₁ s' won' lost') :
    Advances keys s s' (won ++ won') (lost ++ lost') where
  lock := h'.lock
  accepted := by rw [h'.accepted, h.accepted, List.append_assoc]
  rejected := by rw [h'.rejected, h.rejected, List.append_assoc]
  room n hroom := by
    apply h'.room n
    apply h.room (n + won'.length)
    intro key hkey
    have hboth := hroom key hkey
    rwa [List.length_append, Nat.add_comm won.length, ← Nat.add_assoc] at hboth
  paid := by
    have hpaid := h.paid
    have hpaid' := h'.paid
    rw [List.length_append]
    omega

end Advances

/-! ### One transaction -/

/-- What became of a transaction: its result, and what was accepted and rejected. -/
structure Round where
  result : Result FinalExecutionOutcomeView
  won : List SignedTransaction
  lost : List SignedTransaction

/-- The number of times that a transaction is tried again. -/
def RetryableTransaction.retries (tx : RetryableTransaction) : ℕ := (tx.strategy.getD []).length

/-- A transaction whose actions hold an error is not sent; any other is accepted once, after as many rejections
as it has retries at most, or rejected whenever it is tried. -/
inductive Settles (tx : RetryableTransaction) : Round → Prop
  | unsent {err : Error} : tx.actions = .error err → Settles tx ⟨.error err, [], []⟩
  | accepted {outcome : FinalExecutionOutcomeView} {stx : SignedTransaction}
      {lost : List SignedTransaction} : tx.actions = .ok stx.transaction.actions →
      lost.length ≤ tx.retries → Settles tx ⟨.ok outcome, [stx], lost⟩
  | rejected {actions : List Action} {err : Error} {lost : List SignedTransaction} :
      tx.actions = .ok actions → lost.length = tx.retries + 1 → Settles tx ⟨.error err, [], lost⟩

variable [DecidableEq ι] {w : ℕ} {reply : Chain → (call : Rpc) → call.Reply} {t : ι} {cr : Crypto}
  {ks : KeyRotatingSigner}

section attempts

variable (cr) (hreply : Chain.Honest reply)
  (hsigners : ∀ v, ∃ sg, ks.signerAt v = some (.inMemory sg) ∧ sg.key ∈ ks.keys)
  (receiverId : AccountId) (actions : List Action) (waitUntil : TxExecutionStatus)
include hreply hsigners

/-- One attempt is accepted, or a stale key pays for the rejection. -/
theorem attempt_advances {s : Shared ι Chain} (hlock : s.lock = .free)
    (hroom : ∀ key ∈ ks.keys, RoomFor 1 s.nonces s.endpoint key) :
    (∃ outcome s' stx, Solo w reply t (sendTxOnce cr (ks.ext cr) receiverId actions waitUntil)
      s (.ok outcome) s' ∧ Advances ks.keys s s' [stx] [] ∧ stx.transaction.actions = actions) ∨
    ∃ err s' stx, Solo w reply t (sendTxOnce cr (ks.ext cr) receiverId actions waitUntil)
      s (.error err) s' ∧ Advances ks.keys s s' [] [stx] := by
  obtain ⟨counters, nonces, lock, ch⟩ := s
  obtain rfl := hlock
  obtain ⟨sg, hsigner, hkey⟩ := hsigners (counters ks.counter)
  by_cases h : ch.nonces sg.key < nextNonce nonces ch sg.key
  · obtain ⟨stx, outcome, hstx, hnonce, hactions, hsolo⟩ := sendTxOnce_accepted (w := w) (t := t)
      nonces ch cr hreply hsigner receiverId actions waitUntil h
    refine .inl ⟨outcome, _, stx, hsolo, ⟨rfl, rfl, ?_, ?_, ?_⟩, hactions⟩
    · simp [Chain.accept]
    · intro n hroom' key hmem
      exact RoomFor.accepted hstx hnonce (hroom' sg.key hkey) (hroom' key hmem)
    · rw [List.length_nil, Nat.zero_add]
      exact Finset.card_le_card (staleKeys_accepted hstx hnonce)
  · have hstale : stale nonces ch sg.key = true := by
      rw [nextNonce_accepted (hroom sg.key hkey).room] at h
      simpa using h
    obtain ⟨stx, err, hsolo⟩ := sendTxOnce_rejected (w := w) (t := t) nonces ch cr hreply
      hsigner receiverId actions waitUntil h
    refine .inr ⟨err, _, stx, hsolo, ⟨rfl, ?_, rfl, ?_, ?_⟩⟩
    · simp [Chain.reject]
    · intro n hroom' key hmem
      exact (hroom' key hmem).removed stx
    · rw [List.length_singleton, Nat.add_comm]
      exact staleKeys_removed stx hkey hstale

/-- The retries of a transaction end with one that is accepted, or each of them is rejected. -/
theorem retryStart_advances (strategy : List ℕ) {s : Shared ι Chain} (hlock : s.lock = .free)
    (hroom : ∀ key ∈ ks.keys, RoomFor 1 s.nonces s.endpoint key) :
    ∃ result s' won lost, Solo w reply t
        (retryStart strategy (sendTxOnce cr (ks.ext cr) receiverId actions waitUntil)) s result s' ∧
      Advances ks.keys s s' won lost ∧
      ((∃ outcome stx, result = .ok outcome ∧ won = [stx] ∧ stx.transaction.actions = actions ∧
          lost.length ≤ strategy.length) ∨
        ∃ err, result = .error err ∧ won = [] ∧ lost.length = strategy.length + 1) := by
  induction strategy generalizing s with
  | nil =>
      rcases attempt_advances (w := w) (t := t) cr hreply hsigners receiverId actions waitUntil
        hlock hroom with ⟨outcome, s', stx, hsolo, hadv, hactions⟩ | ⟨err, s', stx, hsolo, hadv⟩
      · exact ⟨_, s', _, _, hsolo, hadv, .inl ⟨outcome, stx, rfl, rfl, hactions, Nat.le_refl _⟩⟩
      · exact ⟨_, s', _, _, hsolo, hadv, .inr ⟨err, rfl, rfl, rfl⟩⟩
  | cons delay strategy ih =>
      rcases attempt_advances (w := w) (t := t) cr hreply hsigners receiverId actions waitUntil
        hlock hroom with ⟨outcome, s', stx, hsolo, hadv, hactions⟩ | ⟨err, s₁, stx, hsolo, hadv⟩
      · exact ⟨_, s', _, _, retryStart_ok hsolo _, hadv,
          .inl ⟨outcome, stx, rfl, rfl, hactions, Nat.zero_le _⟩⟩
      · obtain ⟨result, s', won, lost, hrest, hadv', hend⟩ := ih hadv.lock (hadv.room 1 hroom)
        refine ⟨result, s', _, _, retryStart_error hsolo hrest, hadv.trans hadv', ?_⟩
        rcases hend with ⟨outcome, stx', rfl, rfl, hactions, hlost⟩ | ⟨err', rfl, rfl, hlost⟩
        · refine .inl ⟨outcome, stx', rfl, rfl, hactions, ?_⟩
          simpa using hlost
        · refine .inr ⟨err', rfl, rfl, ?_⟩
          simpa using hlost

end attempts

theorem intoFuture_advances (hreply : Chain.Honest reply)
    (hsigners : ∀ v, ∃ sg, ks.signerAt v = some (.inMemory sg) ∧ sg.key ∈ ks.keys)
    {tx : RetryableTransaction} (hsigner : tx.signer = ks.ext cr) {s : Shared ι Chain}
    (hlock : s.lock = .free) (hroom : ∀ key ∈ ks.keys, RoomFor 1 s.nonces s.endpoint key) :
    ∃ round s', Solo w reply t (tx.intoFuture cr) s round.result s' ∧ Settles tx round ∧
      Advances ks.keys s s' round.won round.lost ∧ round.won.length ≤ 1 := by
  cases hactions : tx.actions with
  | error err =>
      have hunsent : tx.intoFuture cr = pure (.error err) := by
        rw [RetryableTransaction.intoFuture, hactions]
      rw [hunsent]
      exact ⟨⟨.error err, [], []⟩, s, ends_pure _ _, .unsent hactions, .refl hlock, Nat.zero_le _⟩
  | ok actions =>
      obtain ⟨result, s', won, lost, hsolo, hadv, hend⟩ := retryStart_advances (w := w) (t := t) cr
        hreply hsigners tx.receiverId actions tx.waitUntil (tx.strategy.getD []) hlock hroom
      rw [tx.intoFuture_ok cr hactions, hsigner]
      refine ⟨⟨result, won, lost⟩, s', hsolo, ?_, hadv, ?_⟩
      · rcases hend with ⟨outcome, stx, rfl, rfl, rfl, hlost⟩ | ⟨err, rfl, rfl, hlost⟩
        · exact .accepted hactions hlost
        · exact .rejected hactions hlost
      · rcases hend with ⟨outcome, stx, -, rfl, -, -⟩ | ⟨err, -, rfl, -⟩
        · exact Nat.le_refl _
        · exact Nat.zero_le _

/-! ### Sessions -/

/-- Awaits the transactions one after another. -/
def awaitAll (cr : Crypto) :
    List RetryableTransaction → Task (List (Result FinalExecutionOutcomeView))
  | [] => return []
  | tx :: txs => do
      let result ← tx.intoFuture cr
      let results ← awaitAll cr txs
      return result :: results

/-- A task that is the only user of the client and of its keys, on an honest chain, awaits any transactions of a
key-rotating signer one after another, each with any number of retries: each of them is settled, and all their
rejections together are at most as many as there were stale keys. -/
theorem session_heals {iter : List (AccountId × SecretKey)} {counter : CounterId}
    (hks : KeyRotatingSigner.tryFromIter cr iter counter = .ok ks) (hreply : Chain.Honest reply)
    {txs : List RetryableTransaction} (hsigner : ∀ tx ∈ txs, tx.signer = ks.ext cr)
    {s : Shared ι Chain} (hlock : s.lock = .free)
    (hroom : ∀ key ∈ ks.keys, RoomFor txs.length s.nonces s.endpoint key) :
    ∃ rounds s', Solo w reply t (awaitAll cr txs) s (rounds.map Round.result) s' ∧
      List.Forall₂ Settles txs rounds ∧
      s'.endpoint.accepted = s.endpoint.accepted ++ rounds.flatMap Round.won ∧
      s'.endpoint.rejected = s.endpoint.rejected ++ rounds.flatMap Round.lost ∧
      (rounds.flatMap Round.lost).length ≤ (staleKeys ks.keys s.nonces s.endpoint).card := by
  have hsession : ∃ rounds s', Solo w reply t (awaitAll cr txs) s (rounds.map Round.result) s' ∧
      List.Forall₂ Settles txs rounds ∧
      Advances ks.keys s s' (rounds.flatMap Round.won) (rounds.flatMap Round.lost) := by
    induction txs generalizing s with
    | nil => exact ⟨[], s, ends_pure _ _, .nil, .refl hlock⟩
    | cons tx txs ih =>
        have hroom₁ : ∀ key ∈ ks.keys, RoomFor 1 s.nonces s.endpoint key := fun key hkey =>
          (hroom key hkey).mono (by simp)
        obtain ⟨round, s₁, hsolo, hsettles, hadv, hwon⟩ := intoFuture_advances (w := w) (t := t)
          hreply (signerAt_keys hks) (hsigner tx List.mem_cons_self) hlock hroom₁
        have hrest : ∀ key ∈ ks.keys, RoomFor txs.length s₁.nonces s₁.endpoint key := by
          apply hadv.room
          intro key hkey
          apply (hroom key hkey).mono
          rw [List.length_cons]
          omega
        obtain ⟨rounds, s', hsolo', hsettles', hadv'⟩ := ih
          (fun tx' hmem => hsigner tx' (List.mem_cons_of_mem _ hmem)) hadv.lock hrest
        exact ⟨round :: rounds, s', hsolo.bind (hsolo'.bind (ends_pure _ _)),
          .cons hsettles hsettles', hadv.trans hadv'⟩
  obtain ⟨rounds, s', hsolo, hsettles, hadv⟩ := hsession
  exact ⟨rounds, s', hsolo, hsettles, hadv.accepted, hadv.rejected,
    (Nat.le_add_right _ _).trans hadv.paid⟩

end sessions

/-- Three transactions without retries, when the entries of both keys are behind the chain. -/
theorem session_heals_farBehind :
    ∃ rounds s', Solo 64 (Chain.reply ⟨⟨⟨[7]⟩, 7⟩⟩ fun _ => .finalExecutionOutcome paid) ()
        (awaitAll .transparent (List.replicate 3 ⟨rotatingAlice.ext .transparent, ⟨"bob.near"⟩,
          .ok [.transfer 1], none, .executedOptimistic⟩))
        farBehind (rounds.map Round.result) s' ∧
      List.Forall₂ Settles (List.replicate 3 ⟨rotatingAlice.ext .transparent, ⟨"bob.near"⟩,
        .ok [.transfer 1], none, .executedOptimistic⟩) rounds ∧
      s'.endpoint.accepted = farBehind.endpoint.accepted ++ rounds.flatMap Round.won ∧
      s'.endpoint.rejected = farBehind.endpoint.rejected ++ rounds.flatMap Round.lost ∧
      (rounds.flatMap Round.lost).length ≤
        (staleKeys rotatingAlice.keys farBehind.nonces farBehind.endpoint).card := by
  have hreply : Chain.Honest (Chain.reply ⟨⟨⟨[7]⟩, 7⟩⟩ fun _ => .finalExecutionOutcome paid) :=
    Chain.honest_reply fun _ _ _ herr => absurd herr List.not_mem_nil
  have hks : KeyRotatingSigner.tryFromIter .transparent twoKeys 0 = .ok rotatingAlice := rfl
  refine session_heals hks hreply ?_ rfl ?_
  · intro tx htx
    rw [List.eq_of_mem_replicate htx]
  · intro key _
    refine ⟨fun v hv => ?_, ?_⟩
    · obtain rfl := Option.some.inj hv
      decide
    · change 5 + 3 < 2 ^ 64
      decide

end NearFetch
