import NearFetch.KeyRotation

/-! # Rotations between the reads of a call

When a call on a shared key-rotating signer does what it should, in terms of the schedule alone: the
turns at which its reads of the counter fall (`turns`) decide which keys it gets.

* `signTx_wellSigned_iff`: the transactions that `sign_tx` returns are signed with the key that they
  name exactly when, in each call, the first read and the rotation select the same key.
* `removal_own_iff`: the calls remove the entries that they drew from exactly when, in each call that
  removes one, the reads for the cache key and for the transaction select the same.

`mismatched_signature` and `wrong_entry_removed` are runs of two tasks in which they do not. -/

namespace NearFetch

open Effects FifoLock

/-! ### What a call did, from the record -/

/-- The transactions that are sent. -/
def sentTx : Act Op Op.Reply → Option Transaction
  | ⟨.rpc (.sendTx stx _), _⟩ => some stx.transaction
  | _ => none

theorem record_next (ks : KeyRotatingSigner) (st : CallRecord) (e : Op) (r : e.Reply) :
    CallRecord.next ks st e r =
      ⟨st.reads ++ (counterRead ks.counter ⟨e, r⟩).toList,
        st.drawn ++ ((drawnNonce ⟨e, r⟩).map Prod.fst).toList,
        st.sent ++ (sentTx ⟨e, r⟩).toList⟩ := by
  cases e with
  | counterLoad c =>
      by_cases hc : c = ks.counter
      · simp [CallRecord.next, counterRead, drawnNonce, sentTx, hc]
      · simp [CallRecord.next, counterRead, drawnNonce, sentTx, hc]
  | counterFetchAdd c =>
      by_cases hc : c = ks.counter
      · simp [CallRecord.next, counterRead, drawnNonce, sentTx, hc]
      · simp [CallRecord.next, counterRead, drawnNonce, sentTx, hc]
  | rpc call => cases call <;> simp [CallRecord.next, counterRead, drawnNonce, sentTx]
  | _ => simp [CallRecord.next, counterRead, drawnNonce, sentTx]

theorem record_after (cr : Crypto) (ks : KeyRotatingSigner) (st : CallRecord)
    (l : List (Act Op Op.Reply)) :
    (rotationProtocol cr ks).after st l =
      ⟨st.reads ++ reads ks.counter l,
        st.drawn ++ l.filterMap (fun a => (drawnNonce a).map Prod.fst),
        st.sent ++ l.filterMap sentTx⟩ := by
  induction l generalizing st with
  | nil => simp
  | cons a l ih =>
      rw [Protocol.after_cons, ih, show (rotationProtocol cr ks).next st a.effect a.reply = _ from
        record_next ks st a.effect a.reply]
      simp only [reads, List.filterMap_cons_toList, List.append_assoc]

/-- The value of a counter that was at `start`, after `k` rotations. -/
def counterAt (w start k : ℕ) : ℕ := (start + k) % 2 ^ w

theorem tryFromIter_eq_ok {cr : Crypto} {iter : List (AccountId × SecretKey)} {counter : CounterId}
    {ks : KeyRotatingSigner} (h : KeyRotatingSigner.tryFromIter cr iter counter = .ok ks) :
    ∃ accountId, ks.counter = counter ∧ iter ≠ [] ∧ (∀ x ∈ iter, x.1 = accountId) ∧
      ks.signers = iter.map fun x => InMemorySigner.fromSecretKey cr accountId x.2 := by
  unfold KeyRotatingSigner.tryFromIter at h
  rw [List.unzip_eq_map] at h
  cases iter with
  | nil => cases h
  | cons x iter =>
      simp only [List.map_cons] at h
      split at h
      · rename_i hall
        cases h
        refine ⟨x.1, rfl, by simp, ?_, ?_⟩
        · intro y hy
          rcases List.mem_cons.mp hy with rfl | hy
          · rfl
          · have hmem := List.all_eq_true.mp hall y.1 (List.mem_map_of_mem hy)
            exact of_decide_eq_true hmem
        · simp [KeyRotatingSigner.fromSigners, List.map_map]
      · cases h

/-! ### Signing -/

/-- The signature was made with the secret key of the public key in the transaction. -/
def WellSigned (cr : Crypto) (iter : List (AccountId × SecretKey)) (stx : SignedTransaction) : Prop :=
  ∃ x ∈ iter, cr.publicKey x.2 = stx.transaction.publicKey ∧
    stx.signature = cr.sign x.2 (cr.getHash stx.transaction).bytes

theorem WellSigned.verify {cr : Crypto} {iter : List (AccountId × SecretKey)}
    {stx : SignedTransaction} (h : WellSigned cr iter stx) :
    cr.verify stx.transaction.publicKey (cr.getHash stx.transaction).bytes stx.signature = true := by
  obtain ⟨x, -, hpk, hsign⟩ := h
  rw [hsign]
  exact (cr.verify_sign _ _ _).mpr hpk

section signing

variable {cr : Crypto} {iter : List (AccountId × SecretKey)} {counter : CounterId}
  {ks : KeyRotatingSigner}

theorem signerAt_tryFromIter (hks : KeyRotatingSigner.tryFromIter cr iter counter = .ok ks) {v : ℕ}
    {s : Signer} (hs : ks.signerAt v = some s) :
    ∃ x ∈ iter, ∀ data, s.publicKey cr = cr.publicKey x.2 ∧ s.sign cr data = cr.sign x.2 data := by
  obtain ⟨accountId, -, -, -, hsigners⟩ := tryFromIter_eq_ok hks
  have hmem := ks.signerAt_mem hs
  rw [hsigners] at hmem
  obtain ⟨x, hx, rfl⟩ := List.mem_map.mp hmem
  exact ⟨x, hx, fun data => ⟨rfl, rfl⟩⟩

/-- A transaction is well signed exactly when the reads for the key and for the signature
selected the same key. -/
theorem wellSigned_iff_of_signedWith
    (hks : KeyRotatingSigner.tryFromIter cr iter counter = .ok ks) {stx : SignedTransaction}
    {v₀ v₃ : ℕ} {s : Signer} (hpk : ks.publicKeyAt cr v₀ = some stx.transaction.publicKey)
    (hs : ks.signerAt v₃ = some s)
    (hsign : stx.signature = s.sign cr (cr.getHash stx.transaction).bytes) :
    WellSigned cr iter stx ↔ ks.publicKeyAt cr v₀ = ks.publicKeyAt cr v₃ := by
  obtain ⟨x, hx, hxs⟩ := signerAt_tryFromIter hks hs
  obtain ⟨hxpk, hxsign⟩ := hxs (cr.getHash stx.transaction).bytes
  have h₃ : ks.publicKeyAt cr v₃ = some (cr.publicKey x.2) := by
    rw [KeyRotatingSigner.publicKeyAt, hs, Option.map_some, hxpk]
  rw [hpk, h₃, Option.some.injEq]
  constructor
  · intro h
    have hver := h.verify
    rw [hsign, hxsign, cr.verify_sign] at hver
    exact hver.symm
  · intro h
    exact ⟨x, hx, h.symm, by rw [hsign, hxsign]⟩

end signing

/-- The call of task `t` gets, with its first read and with its rotation, the same key; the
turns of these reads are those of the schedule. -/
def SignsWithKey {ι : Type} [DecidableEq ι] (cr : Crypto) (ks : KeyRotatingSigner) (w start : ℕ)
    (tr : List (Event ι Op Op.Reply)) (t : ι) : Prop :=
  ∀ k₀ k₁ k₂ k₃ rest, turns ks.counter t tr = k₀ :: k₁ :: k₂ :: k₃ :: rest →
    ks.publicKeyAt cr (counterAt w start k₀) = ks.publicKeyAt cr (counterAt w start k₃)

section signing

variable {ι W A : Type} [DecidableEq ι]

/-- In every run of `sign_tx` on one signer, each transaction that was returned is signed with the
key that it names if and only if in each of these calls the first read of the counter and
the rotation select the same key. -/
theorem signTx_wellSigned_iff (cr : Crypto) {iter : List (AccountId × SecretKey)}
    {counter : CounterId} {ks : KeyRotatingSigner}
    (hks : KeyRotatingSigner.tryFromIter cr iter counter = .ok ks) (w : ℕ) (ep : Endpoint W A)
    (request : ι → AccountId × List Action) {s₀ : Shared ι W}
    (hstart : s₀.counters ks.counter < 2 ^ w) {tr : List (Event ι Op Op.Reply)}
    {c : Config ι (Shared ι W) Op Op.Reply (Result SignedTransaction)}
    (h : Run (machine w ep)
      (.start s₀ fun t => signTx cr (ks.ext cr) (request t).1 (request t).2) tr c) :
    (∀ t stx, c.thread t = some (.pure (.ok stx)) → WellSigned cr iter stx) ↔
      ∀ t, (∃ stx, c.thread t = some (.pure (.ok stx))) →
        SignsWithKey cr ks w (s₀.counters ks.counter) tr t := by
  have hf : ∀ t, Follows (rotationProtocol cr ks)
      (fun result st => ∀ stx, result = .ok stx → SignedWith cr ks stx .empty st) .empty
      (signTx cr (ks.ext cr) (request t).1 (request t).2) := fun t =>
    signTx_rotation cr ks .empty (request t).1 (request t).2
  -- what each finished call read, at which turns, and what that decides
  have hcall : ∀ t stx, c.thread t = some (.pure (.ok stx)) → ∃ k₀ k₁ k₂ k₃,
      turns ks.counter t tr = [k₀, k₁, k₂, k₃] ∧
      (WellSigned cr iter stx ↔ ks.publicKeyAt cr (counterAt w (s₀.counters ks.counter) k₀) =
        ks.publicKeyAt cr (counterAt w (s₀.counters ks.counter) k₃)) := by
    intro t stx ht
    obtain ⟨v₀, v₁, v₂, v₃, drawn, s, hst, -, hkey, hs, hsign⟩ := h.follows hf ht stx rfl
    rw [record_after] at hst
    have hreads := congrArg CallRecord.reads hst
    simp only [CallRecord.empty, List.nil_append] at hreads
    rw [reads_of_run h hstart t] at hreads
    simp only [List.map_eq_cons_iff, List.map_eq_nil_iff] at hreads
    obtain ⟨k₀, _, hturns, rfl, k₁, _, rfl, -, k₂, _, rfl, -, k₃, _, rfl, rfl, rfl⟩ := hreads
    exact ⟨k₀, k₁, k₂, k₃, hturns, wellSigned_iff_of_signedWith hks hkey.2 hs hsign⟩
  constructor
  · rintro hall t ⟨stx, ht⟩ k₀ k₁ k₂ k₃ rest hturns
    obtain ⟨j₀, j₁, j₂, j₃, hturns', hiff⟩ := hcall t stx ht
    rw [hturns'] at hturns
    cases hturns
    exact hiff.mp (hall t stx ht)
  · intro hall t stx ht
    obtain ⟨k₀, k₁, k₂, k₃, hturns, hiff⟩ := hcall t stx ht
    exact hiff.mpr (hall t ⟨stx, ht⟩ k₀ k₁ k₂ k₃ [] hturns)

/-- Two keys of one account. -/
def twoKeys : List (AccountId × SecretKey) :=
  [(⟨"alice.near"⟩, ⟨[1]⟩), (⟨"alice.near"⟩, ⟨[2]⟩)]

/-- The key-rotating signer over the two keys. -/
def rotatingAlice : KeyRotatingSigner :=
  ⟨twoKeys.map fun x => InMemorySigner.fromSecretKey .transparent ⟨"alice.near"⟩ x.2, 0⟩

/-- The replies of an endpoint where the nonce of every key is 5, and where every transaction
that is sent is rejected because of its nonce. -/
def staleReplies : (e : Op) → Option e.Reply :=
  replies fun call => match call with
    | .block _ => .ok ⟨⟨⟨[7]⟩, 7⟩⟩
    | .query _ _ => .ok ⟨.accessKey ⟨5, .fullAccess⟩, ⟨[7]⟩, 7⟩
    | .gasPrice _ => .error (.transportError "closed")
    | .chunk _ => .error (.transportError "closed")
    | .sendTx stx _ => .error (.serverError (.handlerError (.invalidTransaction
        (.invalidNonce stx.transaction.nonce 9))))
    | .tx _ _ _ => .error (.transportError "closed")

/-- Task 0 reads the first key; task 1 signs and rotates; task 0 signs with the second key. -/
def rotatedBetween : List (Move ℕ Empty Op Op.Reply) :=
  .act 0 staleReplies :: List.replicate 15 (.act 1 staleReplies) ++
    List.replicate 10 (.act 0 staleReplies)

/-- A transaction that `sign_tx` returned and that nobody accepts. -/
theorem mismatched_signature :
    KeyRotatingSigner.tryFromIter .transparent twoKeys 0 = .ok rotatingAlice ∧
    ∃ tr c stx, Run (machine 64 anyEndpoint)
        (.start ⟨fun _ => 0, fun _ => none, .free, ()⟩ fun _ : ℕ =>
          signTx .transparent (rotatingAlice.ext .transparent) ⟨"bob.near"⟩ []) tr c ∧
      c.thread 0 = some (.pure (.ok stx)) ∧ ¬ WellSigned .transparent twoKeys stx ∧
      Crypto.transparent.verify stx.transaction.publicKey
        (Crypto.transparent.getHash stx.transaction).bytes stx.signature = false := by
  refine ⟨rfl, ?_⟩
  have hexec : ∃ tr c stx, (machine 64 anyEndpoint).exec []
      (.start ⟨fun _ => 0, fun _ => none, .free, ()⟩ fun _ : ℕ =>
        signTx .transparent (rotatingAlice.ext .transparent) ⟨"bob.near"⟩ []) rotatedBetween =
          some (tr, c) ∧ c.thread 0 = some (.pure (.ok stx)) ∧
      Crypto.transparent.verify stx.transaction.publicKey
        (Crypto.transparent.getHash stx.transaction).bytes stx.signature = false :=
    ⟨_, _, _, rfl, rfl, by decide⟩
  obtain ⟨tr, c, stx, hexec, hthread, hver⟩ := hexec
  refine ⟨tr, c, stx, Run.start.exec hexec, hthread, ?_, hver⟩
  intro hsigned
  rw [hsigned.verify] at hver
  cases hver

theorem signTx_wellSigned_iff_sequential :
    ∃ tr c, Run (machine 64 anyEndpoint)
        (.start ⟨fun _ => 0, fun _ => none, .free, ()⟩ fun _ : Bool =>
          signTx .transparent (rotatingAlice.ext .transparent) ⟨"bob.near"⟩ []) tr c ∧
      ∀ t, ∃ stx, c.thread t = some (.pure (.ok stx)) ∧ WellSigned .transparent twoKeys stx := by
  have hexec : ∃ tr c stx stx', (machine 64 anyEndpoint).exec []
      (.start ⟨fun _ => 0, fun _ => none, .free, ()⟩ fun _ : Bool =>
        signTx .transparent (rotatingAlice.ext .transparent) ⟨"bob.near"⟩ [])
      (List.replicate 15 (.act true staleReplies) ++ List.replicate 15 (.act false staleReplies)) =
          some (tr, c) ∧ c.thread true = some (.pure (.ok stx)) ∧
      c.thread false = some (.pure (.ok stx')) ∧
      turns 0 true tr = [0, 0, 0, 0] ∧ turns 0 false tr = [1, 1, 1, 1] :=
    ⟨_, _, _, _, rfl, rfl, rfl, rfl, rfl⟩
  obtain ⟨tr, c, stx, stx', hexec, htrue, hfalse, hturns, hturns'⟩ := hexec
  have hrun := Run.start.exec hexec
  have hks : KeyRotatingSigner.tryFromIter .transparent twoKeys 0 = .ok rotatingAlice := rfl
  have hsigned := (signTx_wellSigned_iff .transparent hks 64 anyEndpoint
    (fun _ => (⟨"bob.near"⟩, [])) (by decide) hrun).mpr (by
      intro t _ k₀ k₁ k₂ k₃ rest h
      cases t with
      | true => rw [show rotatingAlice.counter = 0 from rfl, hturns] at h; cases h; rfl
      | false => rw [show rotatingAlice.counter = 0 from rfl, hturns'] at h; cases h; rfl)
  refine ⟨tr, c, hrun, fun t => ?_⟩
  cases t with
  | true => exact ⟨stx, htrue, hsigned true stx htrue⟩
  | false => exact ⟨stx', hfalse, hsigned false stx' hfalse⟩

end signing

/-! ### Invalidating -/

/-- The two calls that send a transaction and may invalidate the cache. -/
inductive SendCall where
  | once (receiverId : AccountId) (actions : List Action) (waitUntil : TxExecutionStatus)
  | async (receiverId : AccountId) (actions : List Action)

/-- The task that makes the call on a key-rotating signer and forgets the result. -/
def SendCall.task (cr : Crypto) (ks : KeyRotatingSigner) : SendCall → Task Unit
  | .once receiverId actions waitUntil => do
      let _ ← sendTxOnce cr (ks.ext cr) receiverId actions waitUntil
      return ()
  | .async receiverId actions => do
      let _ ← sendTxAsync cr (ks.ext cr) receiverId actions
      return ()

theorem SendCall.rotation (cr : Crypto) (ks : KeyRotatingSigner) (call : SendCall) :
    Follows (rotationProtocol cr ks) (fun _ _ => True) .empty (call.task cr ks) := by
  cases call with
  | once receiverId actions waitUntil =>
      exact (sendTxOnce_rotation cr ks receiverId actions waitUntil).bind fun _ _ _ => trivial
  | async receiverId actions =>
      exact (sendTxAsync_rotation cr ks receiverId actions).bind fun _ _ _ => trivial

theorem KeyRotatingSigner.keyAt_eq_iff {cr : Crypto} {ks : KeyRotatingSigner} {a p a' p' : ℕ}
    {key key' : CacheKey} (h : ks.KeyAt cr a p key) (h' : ks.KeyAt cr a' p' key') :
    key' = key ↔ ks.accountAt a = ks.accountAt a' ∧ ks.publicKeyAt cr p = ks.publicKeyAt cr p' := by
  rw [h.1, h.2, h'.1, h'.2, Option.some.injEq, Option.some.injEq, Prod.ext_iff]
  constructor
  · rintro ⟨ha, hp⟩
    exact ⟨ha.symm, hp.symm⟩
  · rintro ⟨ha, hp⟩
    exact ⟨ha.symm, hp.symm⟩

section invalidating

variable {ι : Type} [DecidableEq ι]

/-- The keys of the transactions that task `t` sent. -/
def sentKeys (t : ι) (tr : List (Event ι Op Op.Reply)) : List CacheKey :=
  ((acts t tr).filterMap sentTx).map Transaction.key

/-- The entries that task `t` drew its nonces from. -/
def drawnKeys (t : ι) (tr : List (Event ι Op Op.Reply)) : List CacheKey :=
  (acts t tr).filterMap fun a => (drawnNonce a).map Prod.fst

/-- The call of task `t` selects one account with its reads for the cache key, for the nonce and for
the transaction, and one public key with those for the cache key and for the transaction. -/
def SelectsOneKey (cr : Crypto) (ks : KeyRotatingSigner) (w start : ℕ)
    (tr : List (Event ι Op Op.Reply)) (t : ι) : Prop :=
  ∀ k₀ k₁ k₂ k₃ k₄ rest, turns ks.counter t tr = k₀ :: k₁ :: k₂ :: k₃ :: k₄ :: rest →
    ks.accountAt (counterAt w start k₀) = ks.accountAt (counterAt w start k₃) ∧
      ks.accountAt (counterAt w start k₀) = ks.accountAt (counterAt w start k₄) ∧
      ks.publicKeyAt cr (counterAt w start k₁) = ks.publicKeyAt cr (counterAt w start k₂)

variable {W A : Type} {cr : Crypto} {ks : KeyRotatingSigner} {w : ℕ} {ep : Endpoint W A}
  {calls : ι → SendCall} {s₀ : Shared ι W}
  {c : Config ι (Shared ι W) Op Op.Reply Unit}

theorem removal_own (hstart : s₀.counters ks.counter < 2 ^ w)
    {pre post : List (Event ι Op Op.Reply)} {t : ι} {key : CacheKey}
    (h : Run (machine w ep) (.start s₀ fun t => (calls t).task cr ks)
      (pre ++ ⟨t, ⟨.nonceRemove key, ()⟩⟩ :: post) c) :
    ∃ k₀ k₁ k₂ k₃ k₄ k₅, turns ks.counter t pre = [k₀, k₁, k₂, k₃, k₄, k₅] ∧
      (sentKeys t pre = [key] ∧ drawnKeys t pre = [key] ↔
        ks.accountAt (counterAt w (s₀.counters ks.counter) k₀) =
            ks.accountAt (counterAt w (s₀.counters ks.counter) k₃) ∧
          ks.accountAt (counterAt w (s₀.counters ks.counter) k₀) =
            ks.accountAt (counterAt w (s₀.counters ks.counter) k₄) ∧
          ks.publicKeyAt cr (counterAt w (s₀.counters ks.counter) k₁) =
            ks.publicKeyAt cr (counterAt w (s₀.counters ks.counter) k₂)) := by
  obtain ⟨-, hallowed, -⟩ := h.obeys_event fun t => (calls t).rotation cr ks
  obtain ⟨v₀, v₁, v₂, v₃, v₄, v₅, tx, drawn, hrecord, hkey, htx, hdrawn⟩ := hallowed
  rw [record_after] at hrecord
  simp only [CallRecord.empty, List.nil_append, CallRecord.mk.injEq] at hrecord
  obtain ⟨hreads, hdrew, hsent⟩ := hrecord
  obtain ⟨c₁, k, ans, s, hrun, -, -, -⟩ := h.split
  rw [reads_of_run hrun hstart t] at hreads
  simp only [List.map_eq_cons_iff, List.map_eq_nil_iff] at hreads
  obtain ⟨k₀, _, hturns, rfl, k₁, _, rfl, rfl, k₂, _, rfl, rfl, k₃, _, rfl, rfl, k₄, _, rfl, rfl,
    k₅, _, rfl, -, rfl⟩ := hreads
  refine ⟨k₀, k₁, k₂, k₃, k₄, k₅, hturns, ?_⟩
  have hs : sentKeys t pre = [tx.key] := by
    rw [sentKeys, hsent]
    rfl
  have hd : drawnKeys t pre = [drawn] := hdrew
  rw [hs, hd, List.cons.injEq, List.cons.injEq, KeyRotatingSigner.keyAt_eq_iff hkey htx,
    KeyRotatingSigner.keyAt_eq_iff hkey hdrawn]
  constructor
  · rintro ⟨⟨⟨h₄, hp⟩, -⟩, ⟨h₃, -⟩, -⟩
    exact ⟨h₃, h₄, hp⟩
  · rintro ⟨h₃, h₄, hp⟩
    exact ⟨⟨⟨h₄, hp⟩, rfl⟩, ⟨h₃, hp⟩, rfl⟩

/-- In every run of calls that send transactions with one key-rotating signer, each call removes
only the entry of the transaction that it sent, from which it drew, if and only if each call that
removes an entry selects one key with its reads. -/
theorem removal_own_iff (cr : Crypto) (ks : KeyRotatingSigner) (w : ℕ) (ep : Endpoint W A)
    (calls : ι → SendCall) {s₀ : Shared ι W} (hstart : s₀.counters ks.counter < 2 ^ w)
    {tr : List (Event ι Op Op.Reply)} {c : Config ι (Shared ι W) Op Op.Reply Unit}
    (h : Run (machine w ep) (.start s₀ fun t => (calls t).task cr ks) tr c) :
    (∀ pre t key post, tr = pre ++ ⟨t, ⟨.nonceRemove key, ()⟩⟩ :: post →
        sentKeys t pre = [key] ∧ drawnKeys t pre = [key]) ↔
      ∀ t key, ⟨t, ⟨.nonceRemove key, ()⟩⟩ ∈ tr →
        SelectsOneKey cr ks w (s₀.counters ks.counter) tr t := by
  constructor
  · intro hown t key hmem k₀ k₁ k₂ k₃ k₄ rest hturns
    obtain ⟨pre, post, rfl⟩ := List.append_of_mem hmem
    obtain ⟨j₀, j₁, j₂, j₃, j₄, j₅, hpre, hiff⟩ := removal_own hstart h
    rw [turns_append, hpre] at hturns
    cases hturns
    exact hiff.mp (hown pre t key post rfl)
  · rintro hselects pre t key post rfl
    obtain ⟨k₀, k₁, k₂, k₃, k₄, k₅, hpre, hiff⟩ := removal_own hstart h
    have hturns := turns_append ks.counter t pre (⟨t, ⟨.nonceRemove key, ()⟩⟩ :: post)
    rw [hpre] at hturns
    exact hiff.mpr (hselects t key (by simp) k₀ k₁ k₂ k₃ k₄ _ hturns)

/-- Task 0 reads the first key for its cache key; task 1 sends a transaction and rotates; task 0
sends with the second key, is rejected and invalidates. -/
def rotatedAfterCacheKey : List (Move ℕ Empty Op Op.Reply) :=
  List.replicate 2 (.act 0 staleReplies) ++ List.replicate 18 (.act 1 staleReplies) ++
    List.replicate 19 (.act 0 staleReplies)

/-- A call that removes the entry of the first key because of a transaction of the second. -/
theorem wrong_entry_removed :
    ∃ pre c, Run (machine 64 anyEndpoint)
        (.start ⟨fun _ => 0, fun _ => none, .free, ()⟩ fun _ : ℕ =>
          (SendCall.once ⟨"bob.near"⟩ [] .executedOptimistic).task .transparent rotatingAlice)
        (pre ++ [⟨0, ⟨.nonceRemove (⟨"alice.near"⟩, ⟨[1]⟩), ()⟩⟩]) c ∧
      sentKeys 0 pre = [(⟨"alice.near"⟩, ⟨[2]⟩)] ∧ drawnKeys 0 pre = [(⟨"alice.near"⟩, ⟨[2]⟩)] := by
  have hexec : ∃ tr c, (machine 64 anyEndpoint).exec []
      (.start ⟨fun _ => 0, fun _ => none, .free, ()⟩ fun _ : ℕ =>
        (SendCall.once ⟨"bob.near"⟩ [] .executedOptimistic).task .transparent rotatingAlice)
      rotatedAfterCacheKey = some (tr, c) ∧
      tr = tr.take 38 ++ [⟨0, ⟨.nonceRemove (⟨"alice.near"⟩, ⟨[1]⟩), ()⟩⟩] ∧
      sentKeys 0 (tr.take 38) = [(⟨"alice.near"⟩, ⟨[2]⟩)] ∧
      drawnKeys 0 (tr.take 38) = [(⟨"alice.near"⟩, ⟨[2]⟩)] :=
    ⟨_, _, rfl, rfl, rfl, rfl⟩
  obtain ⟨tr, c, hexec, htr, hsent, hdrawn⟩ := hexec
  refine ⟨tr.take 38, c, ?_, hsent, hdrawn⟩
  rw [← htr]
  exact Run.start.exec hexec

theorem removal_own_iff_alone :
    ∃ pre c, Run (machine 64 anyEndpoint)
        (.start ⟨fun _ => 0, fun _ => none, .free, ()⟩ fun _ : Unit =>
          (SendCall.once ⟨"bob.near"⟩ [] .executedOptimistic).task .transparent rotatingAlice)
        (pre ++ [⟨(), ⟨.nonceRemove (⟨"alice.near"⟩, ⟨[1]⟩), ()⟩⟩]) c ∧
      sentKeys () pre = [(⟨"alice.near"⟩, ⟨[1]⟩)] ∧ drawnKeys () pre = [(⟨"alice.near"⟩, ⟨[1]⟩)] := by
  have hexec : ∃ tr c, (machine 64 anyEndpoint).exec []
      (.start ⟨fun _ => 0, fun _ => none, .free, ()⟩ fun _ : Unit =>
        (SendCall.once ⟨"bob.near"⟩ [] .executedOptimistic).task .transparent rotatingAlice)
      (List.replicate 21 (.act () staleReplies)) = some (tr, c) ∧
      tr = tr.take 20 ++ [⟨(), ⟨.nonceRemove (⟨"alice.near"⟩, ⟨[1]⟩), ()⟩⟩] ∧
      turns 0 () tr = [0, 0, 0, 0, 0, 0] :=
    ⟨_, _, rfl, rfl, rfl⟩
  obtain ⟨tr, c, hexec, htr, hturns⟩ := hexec
  have hrun := Run.start.exec hexec
  have hown := (removal_own_iff .transparent rotatingAlice 64 anyEndpoint
    (fun _ => SendCall.once ⟨"bob.near"⟩ [] .executedOptimistic) (by decide) hrun).mpr (by
      intro t key _ k₀ k₁ k₂ k₃ k₄ rest h
      rw [show rotatingAlice.counter = 0 from rfl, hturns] at h
      cases h
      exact ⟨rfl, rfl, rfl⟩)
  obtain ⟨hsent, hdrawn⟩ := hown _ _ _ [] htr
  rw [htr] at hrun
  exact ⟨_, c, hrun, hsent, hdrawn⟩

end invalidating

end NearFetch
