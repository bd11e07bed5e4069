import Mathlib.Data.Finset.Card
import NearFetch.SoloClient
import NearFetch.KeyRaces
import NearFetch.RetryLoop

/-! # Retrying heals a stale cache

A key is stale when its entry is behind the chain; then the next transaction with it is rejected and
its entry is removed, so it is stale no longer, and no other key becomes stale.  The number of stale
keys (`staleKeys`) therefore falls with every rejected attempt, whatever order the rotation brings
the keys in and wherever its counter wraps, and an attempt with a key that is not stale is accepted
(`attempt_accepted`, `attempt_rejected`).  `retry_heals` concludes that as many retries as there are
keys are enough. -/

namespace NearFetch

open Effects FifoLock

/-- The entry of the key is behind the chain. -/
def stale (nonces : CacheKey → Option Nonce) (ch : Chain) (key : CacheKey) : Bool :=
  match nonces key with
  | some v => decide (v < ch.nonces key)
  | none => false

/-- The stale keys among those of a signer. -/
def staleKeys (keys : Finset CacheKey) (nonces : CacheKey → Option Nonce) (ch : Chain) :
    Finset CacheKey := keys.filter fun key => stale nonces ch key = true

/-- Neither the entry of the key nor its nonce on the chain is the last one. -/
structure Room (nonces : CacheKey → Option Nonce) (ch : Chain) (key : CacheKey) : Prop where
  entry : ∀ v, nonces key = some v → v + 1 < 2 ^ 64
  chain : ch.nonces key + 1 < 2 ^ 64

/-- The keys of a signer. -/
def KeyRotatingSigner.keys (ks : KeyRotatingSigner) : Finset CacheKey :=
  (ks.signers.filterMap fun
    | .inMemory sg => some sg.key
    | .empty => none).toFinset

theorem KeyRotatingSigner.card_keys (ks : KeyRotatingSigner) :
    ks.keys.card ≤ ks.signers.length :=
  (List.toFinset_card_le _).trans (List.length_filterMap_le _ _)

section nonces

variable {keys : Finset CacheKey} {nonces : CacheKey → Option Nonce} {ch : Chain} {key : CacheKey}

/-- With room for one more, the chain accepts the next nonce of a key unless the key is stale. -/
theorem nextNonce_accepted (hroom : Room nonces ch key) :
    ch.nonces key < nextNonce nonces ch key ↔ stale nonces ch key = false := by
  unfold nextNonce stale
  cases hv : nonces key with
  | none =>
      rw [Option.getD_none, wrapSucc_of_lt hroom.chain]
      simp
  | some v =>
      rw [Option.getD_some, wrapSucc_of_lt (hroom.entry v hv)]
      simp only [decide_eq_false_iff_not]
      constructor
      · intro h
        exact Nat.not_lt.mpr (Nat.lt_succ_iff.mp h)
      · intro h
        exact Nat.lt_succ_iff.mpr (Nat.not_lt.mp h)

theorem staleKeys_removed (stx : SignedTransaction) (hkey : key ∈ keys)
    (hstale : stale nonces ch key = true) :
    (staleKeys keys (Function.update nonces key none) (ch.reject stx)).card <
      (staleKeys keys nonces ch).card := by
  have hsub : ∀ k, stale (Function.update nonces key none) (ch.reject stx) k = true →
      k ≠ key ∧ stale nonces ch k = true := by
    intro k hk
    by_cases heq : k = key
    · subst heq
      simp [stale] at hk
    · have hsame : stale (Function.update nonces key none) (ch.reject stx) k = stale nonces ch k := by
        unfold stale
        rw [Function.update_of_ne heq]
        rfl
      exact ⟨heq, hsame ▸ hk⟩
  apply Finset.card_lt_card
  rw [Finset.ssubset_iff_of_subset]
  · refine ⟨key, Finset.mem_filter.mpr ⟨hkey, hstale⟩, ?_⟩
    intro hmem
    exact (hsub key (Finset.mem_filter.mp hmem).2).1 rfl
  · intro k hk
    obtain ⟨hmem, hk⟩ := Finset.mem_filter.mp hk
    exact Finset.mem_filter.mpr ⟨hmem, (hsub k hk).2⟩

theorem Room.removed {k : CacheKey} (stx : SignedTransaction) (hroom : Room nonces ch k) :
    Room (Function.update nonces key none) (ch.reject stx) k := by
  refine ⟨fun v hv => ?_, hroom.chain⟩
  by_cases heq : k = key
  · subst heq
    simp at hv
  · rw [Function.update_of_ne heq] at hv
    exact hroom.entry v hv

end nonces

section healing

variable {ι : Type} [DecidableEq ι] {w : ℕ} {reply : Chain → (call : Rpc) → call.Reply} {t : ι}
  {α : Type} {action : Task (Result α)} {s s₁ s' : Shared ι Chain}

/-! ### Rounds of the retry loop -/

theorem retryStart_ok {a : α} (h : Solo w reply t action s (.ok a) s') (strategy : List ℕ) :
    Solo w reply t (retryStart strategy action) s (.ok a) s' := by
  cases strategy with
  | nil => exact h
  | cons delay strategy => exact Ends.bind h (ends_pure _ _)

theorem retryStart_error {err : Error} {result : Result α} {strategy : List ℕ} {delay : ℕ}
    (h : Solo w reply t action s (.error err) s₁)
    (hrest : Solo w reply t (retryStart strategy action) s₁ result s') :
    Solo w reply t (retryStart (delay :: strategy) action) s result s' :=
  Ends.bind h (Ends.op rfl hrest)

/-- How the retries end: one transaction is accepted, and its key's entry is its nonce. -/
structure Healed (ch : Chain) (actions : List Action) (rejections : ℕ) (s' : Shared ι Chain)
    (stx : SignedTransaction) (refused : List SignedTransaction) : Prop where
  accepted : s'.endpoint.accepted = ch.accepted ++ [stx]
  rejected : s'.endpoint.rejected = ch.rejected ++ refused
  rejections : refused.length ≤ rejections
  entry : s'.nonces stx.transaction.key = some stx.transaction.nonce
  actions : stx.transaction.actions = actions

variable {cr : Crypto} {ks : KeyRotatingSigner}

theorem signerAt_keys {iter : List (AccountId × SecretKey)} {counter : CounterId}
    (hks : KeyRotatingSigner.tryFromIter cr iter counter = .ok ks) (v : ℕ) :
    ∃ sg, ks.signerAt v = some (.inMemory sg) ∧ sg.key ∈ ks.keys := by
  obtain ⟨accountId, -, hne, -, hsigners⟩ := tryFromIter_eq_ok hks
  have hpos : 0 < ks.signers.length := by
    rw [hsigners, List.length_map]
    exact List.length_pos_iff.mpr hne
  obtain ⟨s, hs⟩ := ks.signerAt_eq_some hpos v
  have hmem := ks.signerAt_mem hs
  have hin := hmem
  rw [hsigners] at hin
  obtain ⟨x, -, rfl⟩ := List.mem_map.mp hin
  refine ⟨_, hs, ?_⟩
  rw [KeyRotatingSigner.keys, List.mem_toFinset]
  exact List.mem_filterMap.mpr ⟨_, hmem, rfl⟩

section attempts

variable (cr) (hreply : Chain.Honest reply)
  (hsigners : ∀ v, ∃ sg, ks.signerAt v = some (.inMemory sg) ∧ sg.key ∈ ks.keys)
  (receiverId : AccountId) (actions : List Action) (waitUntil : TxExecutionStatus)
include hreply hsigners

/-- One attempt is accepted, or it leaves fewer stale keys. -/
theorem attempt_solo (counters : CounterId → ℕ) (nonces : CacheKey → Option Nonce) (ch : Chain)
    (hroom : ∀ key ∈ ks.keys, Room nonces ch key) :
    (∃ outcome s' stx, Solo w reply t (sendTxOnce cr (ks.ext cr) receiverId actions waitUntil)
      ⟨counters, nonces, .free, ch⟩ (.ok outcome) s' ∧ Healed ch actions 0 s' stx []) ∨
    ∃ err counters' nonces' stx,
      Solo w reply t (sendTxOnce cr (ks.ext cr) receiverId actions waitUntil)
        ⟨counters, nonces, .free, ch⟩ (.error err) ⟨counters', nonces', .free, ch.reject stx⟩ ∧
      (∀ key ∈ ks.keys, Room nonces' (ch.reject stx) key) ∧
      (staleKeys ks.keys nonces' (ch.reject stx)).card < (staleKeys ks.keys nonces ch).card := by
  obtain ⟨sg, hsigner, hkey⟩ := hsigners (counters ks.counter)
  have haccepted := nextNonce_accepted (hroom sg.key hkey)
  by_cases h : ch.nonces sg.key < nextNonce nonces ch sg.key
  · obtain ⟨stx, outcome, hstx, hnonce, hactions, hsolo⟩ := sendTxOnce_accepted (w := w) (t := t)
      nonces ch cr hreply hsigner receiverId actions waitUntil h
    refine .inl ⟨outcome, _, stx, hsolo, rfl, by simp [Chain.accept], Nat.le_refl _, ?_, hactions⟩
    rw [hstx, hnonce]
    exact Function.update_self _ _ _
  · have hstale : stale nonces ch sg.key = true := by
      rw [haccepted] at h
      simpa using h
    obtain ⟨stx, err, hsolo⟩ := sendTxOnce_rejected (w := w) (t := t) nonces ch cr hreply
      hsigner receiverId actions waitUntil h
    exact .inr ⟨err, _, _, stx, hsolo, fun key hk => (hroom key hk).removed stx,
      staleKeys_removed stx hkey hstale⟩

/-- As many retries as there are stale keys are enough. -/
theorem retryStart_heals (strategy : List ℕ) (counters : CounterId → ℕ)
    (nonces : CacheKey → Option Nonce) (ch : Chain)
    (hroom : ∀ key ∈ ks.keys, Room nonces ch key)
    (hstale : (staleKeys ks.keys nonces ch).card ≤ strategy.length) :
    ∃ outcome s' stx refused,
      Solo w reply t
        (retryStart strategy (sendTxOnce cr (ks.ext cr) receiverId actions waitUntil))
        ⟨counters, nonces, .free, ch⟩ (.ok outcome) s' ∧
      Healed ch actions (staleKeys ks.keys nonces ch).card s' stx refused := by
  induction strategy generalizing counters nonces ch with
  | nil =>
      rcases attempt_solo (w := w) (t := t) cr hreply hsigners receiverId actions waitUntil
        counters nonces ch hroom with ⟨outcome, s', stx, hsolo, hhealed⟩ | ⟨_, _, _, _, -, -, hlt⟩
      · exact ⟨outcome, s', stx, [], retryStart_ok hsolo [], hhealed.accepted, hhealed.rejected,
          Nat.zero_le _, hhealed.entry, hhealed.actions⟩
      · rw [List.length_nil] at hstale
        omega
  | cons delay strategy ih =>
      rcases attempt_solo (w := w) (t := t) cr hreply hsigners receiverId actions waitUntil
        counters nonces ch hroom with ⟨outcome, s', stx, hsolo, hhealed⟩ |
        ⟨err, counters', nonces', lost, hsolo, hroom', hlt⟩
      · exact ⟨outcome, s', stx, [], retryStart_ok hsolo _, hhealed.accepted, hhealed.rejected,
          Nat.zero_le _, hhealed.entry, hhealed.actions⟩
      · have hstale' : (staleKeys ks.keys nonces' (ch.reject lost)).card ≤ strategy.length := by
          rw [List.length_cons] at hstale
          omega
        obtain ⟨outcome, s', stx, refused, hrest, hhealed⟩ := ih counters' nonces' (ch.reject lost)
          hroom' hstale'
        have hrejections := hhealed.rejections
        refine ⟨outcome, s', stx, lost :: refused, retryStart_error hsolo hrest, hhealed.accepted,
          ?_, ?_, hhealed.entry, hhealed.actions⟩
        · rw [hhealed.rejected, Chain.reject, List.append_assoc]
          rfl
        · rw [List.length_cons]
          omega

end attempts

/-- A task that is the only user of the client and of its keys, on an honest chain: one await of a
transaction with at least as many retries as there are keys is rejected at most once for each key,
ends with an outcome and one accepted transaction, and leaves its nonce in the entry of its key. -/
theorem retry_heals (cr : Crypto) {iter : List (AccountId × SecretKey)} {counter : CounterId}
    {ks : KeyRotatingSigner} (hks : KeyRotatingSigner.tryFromIter cr iter counter = .ok ks) (w : ℕ)
    {reply : Chain → (call : Rpc) → call.Reply} (hreply : Chain.Honest reply) (t : ι)
    {s : Shared ι Chain} (hlock : s.lock = .free)
    (hroom : ∀ key ∈ ks.keys, Room s.nonces s.endpoint key) (receiverId : AccountId)
    (actions : List Action) {strategy : List ℕ} (hlength : iter.length ≤ strategy.length)
    (waitUntil : TxExecutionStatus) :
    ∃ outcome s' stx refused,
      Solo w reply t (RetryableTransaction.intoFuture cr
        ⟨ks.ext cr, receiverId, .ok actions, some strategy, waitUntil⟩) s (.ok outcome) s' ∧
      Healed s.endpoint actions iter.length s' stx refused := by
  obtain ⟨counters, nonces, lock, ch⟩ := s
  obtain rfl := hlock
  have hcard : ks.keys.card ≤ iter.length := by
    obtain ⟨accountId, -, -, -, hsigners⟩ := tryFromIter_eq_ok hks
    have hle := ks.card_keys
    rwa [hsigners, List.length_map] at hle
  have hstale : (staleKeys ks.keys nonces ch).card ≤ iter.length :=
    (Finset.card_filter_le _ _).trans hcard
  obtain ⟨outcome, s', stx, refused, hsolo, hhealed⟩ := retryStart_heals (w := w) (t := t)
    cr hreply (signerAt_keys hks) receiverId actions waitUntil strategy counters nonces ch
    hroom (hstale.trans hlength)
  exact ⟨outcome, s', stx, refused, hsolo, hhealed.accepted, hhealed.rejected,
    hhealed.rejections.trans hstale, hhealed.entry, hhealed.actions⟩

end healing

/-- The entries of all keys are behind the chain, and the rotation counter is about to wrap. -/
def farBehind : Shared Unit Chain :=
  ⟨fun _ => 2 ^ 64 - 1, fun _ => some 0, .free, ⟨fun _ => 5, [], []⟩⟩

theorem retry_heals_farBehind :
    ∃ outcome s' stx refused,
      Solo 64 (Chain.reply ⟨⟨⟨[7]⟩, 7⟩⟩ fun _ => .finalExecutionOutcome paid) ()
        (RetryableTransaction.intoFuture .transparent ⟨rotatingAlice.ext .transparent,
          ⟨"bob.near"⟩, .ok [.transfer 1], some [100, 200], .executedOptimistic⟩)
        farBehind (.ok outcome) s' ∧
      Healed farBehind.endpoint [.transfer 1] 2 s' stx refused := by
  have hreply : Chain.Honest (Chain.reply ⟨⟨⟨[7]⟩, 7⟩⟩ fun _ => .finalExecutionOutcome paid) :=
    Chain.honest_reply fun _ _ _ herr => absurd herr List.not_mem_nil
  have hroom : ∀ key ∈ rotatingAlice.keys, Room farBehind.nonces farBehind.endpoint key := by
    intro key _
    refine ⟨fun v hv => ?_, ?_⟩
    · obtain rfl := Option.some.inj hv
      decide
    · change 5 + 1 < 2 ^ 64
      decide
  have hks : KeyRotatingSigner.tryFromIter .transparent twoKeys 0 = .ok rotatingAlice := rfl
  exact retry_heals .transparent hks 64 hreply () rfl hroom _ _
    (Nat.le_refl _) _

end NearFetch
