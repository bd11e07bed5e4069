import NearFetch.RotationWindows
import NearFetch.Tasks
import NearFetch.Costs
import NearFetch.NonceReuse

/-! # Whose turn it is to sign

Every transaction that a key-rotating signer signs takes one turn of the rotation: `turnProtocol` keeps
what a task has read from the counter since it last submitted something (`Turn`), and says that a task
rotates once for each transaction and submits it right then, signed by the signer whose turn it was.  The
turns that a task took are therefore those of its submissions, but for one that it may still hold
(`rotated_eq`).

Over a run the turns go round (`RoundRobin.count_le_of_stretch`), so the signatures are spread evenly over
the signers, whatever the interleaving (`signatures_spread`). -/

namespace NearFetch

open Effects FifoLock

/-- The turns of a task's submissions, and what it has read from the counter since the last of them:
the loads, and the turn that it has taken. -/
structure Turn where
  used : List ℕ
  loads : List ℕ
  held : Option ℕ
deriving DecidableEq

namespace Turn

variable (cr : Crypto) (ks : KeyRotatingSigner)

/-- Before the first access. -/
def start : Turn := ⟨[], [], none⟩

/-- The counter was loaded. -/
def load (st : Turn) (v : ℕ) : Turn := { st with loads := st.loads ++ [v] }

/-- A turn was taken. -/
def take (st : Turn) (v : ℕ) : Turn := { st with held := some v }

@[simp] theorem load_held (st : Turn) (v : ℕ) : (st.load v).held = st.held := rfl

/-- The turns after an effect. -/
def next : Turn → (e : Op) → e.Reply → Turn
  | st, .counterLoad c, v => if c = ks.counter then st.load v else st
  | st, .counterFetchAdd c, v => if c = ks.counter then st.take v else st
  | st, .rpc (.sendTx _ _), _ => ⟨st.used ++ st.held.toList, [], none⟩
  | st, _, _ => st

/-- The transaction names what the last loads selected, and the signer whose turn it is signed it. -/
def Signs (st : Turn) (stx : SignedTransaction) : Prop :=
  ∃ before v₀ v₁ v₂ v s, st.loads = before ++ [v₀, v₁, v₂] ∧ st.held = some v ∧
    ks.KeyAt cr v₂ v₀ stx.transaction.key ∧ ks.signerAt v = some s ∧
    stx.signature = s.sign cr (cr.getHash stx.transaction).bytes

/-- A turn is used before the counter is accessed again. -/
def allowed (st : Turn) : Op → Prop
  | .counterLoad c => c = ks.counter → st.held = none
  | .counterFetchAdd c => c = ks.counter → st.held = none
  | .rpc (.sendTx stx _) => st.Signs cr ks stx
  | _ => True

end Turn

/-- The turns of a task whose transactions are all signed by one key-rotating signer. -/
abbrev turnProtocol (cr : Crypto) (ks : KeyRotatingSigner) : Protocol Op Op.Reply where
  State := Turn
  next := Turn.next ks
  allowed := Turn.allowed cr ks
  mayPanic _ := True

section follows

variable {cr : Crypto} {ks : KeyRotatingSigner} {st : Turn} {α : Type}

theorem select_turn (v : ℕ) :
    Follows (turnProtocol cr ks) (fun s st' => ks.signerAt v = some s ∧ st' = st) st
      (ks.select v) := by
  unfold KeyRotatingSigner.select
  cases h : ks.signers[v % ks.signers.length]? with
  | none => trivial
  | some s => exact ⟨h, rfl⟩

theorem currentSigner_turn (hheld : st.held = none) :
    Follows (turnProtocol cr ks)
      (fun s st' => ∃ v, ks.signerAt v = some s ∧ st' = st.load v) st ks.currentSigner := by
  refine ⟨fun _ => hheld, fun v => ?_⟩
  have hnext : (turnProtocol cr ks).next st (.counterLoad ks.counter) v = st.load v :=
    if_pos rfl
  rw [hnext]
  apply (select_turn v).mono
  rintro s st' ⟨hs, rfl⟩
  exact ⟨v, hs, rfl⟩

theorem accountId_turn (hheld : st.held = none) :
    Follows (turnProtocol cr ks)
      (fun a st' => ∃ v, ks.accountAt v = some a ∧ st' = st.load v) st ks.accountId := by
  apply (currentSigner_turn hheld).bind
  rintro s st' ⟨v, hs, rfl⟩
  cases s with
  | empty => trivial
  | inMemory s => exact ⟨v, by simp [KeyRotatingSigner.accountAt, hs, Signer.account?], rfl⟩

theorem publicKey_turn (hheld : st.held = none) :
    Follows (turnProtocol cr ks)
      (fun pk st' => ∃ v, ks.publicKeyAt cr v = some pk ∧ st' = st.load v) st (ks.publicKey cr) := by
  apply (currentSigner_turn hheld).bind
  rintro s st' ⟨v, hs, rfl⟩
  exact ⟨v, by simp [KeyRotatingSigner.publicKeyAt, hs], rfl⟩

theorem sign_turn (hheld : st.held = none) (data : List UInt8) :
    Follows (turnProtocol cr ks)
      (fun signature st' => ∃ v s, ks.signerAt v = some s ∧ signature = s.sign cr data ∧
        st' = st.take v)
      st (ks.sign cr data) := by
  refine ⟨fun _ => hheld, fun v => ?_⟩
  have hnext : (turnProtocol cr ks).next st (.counterFetchAdd ks.counter) v = st.take v :=
    if_pos rfl
  rw [hnext]
  apply (select_turn v).bind
  rintro s st' ⟨hs, rfl⟩
  exact ⟨v, s, hs, rfl, rfl⟩

theorem fetchNonce_turn (accountId : AccountId) (publicKey : PublicKey) :
    Follows (turnProtocol cr ks) (fun _ st' => st' = st) st (fetchNonce accountId publicKey) := by
  refine fetchNonce_still (fun e he => ?_) trivial fun result => ⟨trivial, rfl⟩
  cases e with
  | rpc call => cases call <;> first | exact ⟨trivial, fun _ => rfl⟩ | cases he
  | counterLoad c => cases he
  | counterFetchAdd c => cases he
  | _ => exact ⟨trivial, fun _ => rfl⟩

theorem invalidateCache_turn (key : CacheKey) :
    Follows (turnProtocol cr ks) (fun _ st' => st' = st) st (invalidateCache key) :=
  ⟨trivial, fun _ => ⟨trivial, fun _ => ⟨trivial, fun _ => ⟨trivial, fun _ => rfl⟩⟩⟩⟩

/-- A call of `sign_tx` takes a turn if it succeeds, for the transaction that it returns. -/
def Turn.Took (cr : Crypto) (ks : KeyRotatingSigner) (st : Turn) : Result SignedTransaction → Prop
  | .ok stx => st.Signs cr ks stx
  | .error _ => st.held = none

theorem signTx_turn (hheld : st.held = none) (receiverId : AccountId) (actions : List Action) :
    Follows (turnProtocol cr ks) (fun result st' => st'.Took cr ks result) st
      (signTx cr (ks.ext cr) receiverId actions) := by
  unfold signTx
  apply (publicKey_turn hheld).bind
  rintro pk st₁ ⟨v₀, hv₀, rfl⟩
  have hheld₁ : (st.load v₀).held = none := hheld
  apply (accountId_turn hheld₁).bind
  rintro accountId st₂ ⟨v₁, -, rfl⟩
  have hheld₂ : ((st.load v₀).load v₁).held = none := hheld
  apply (fetchNonce_turn accountId pk).bind
  rintro result _ rfl
  cases result with
  | error err => exact hheld
  | ok x =>
      apply (accountId_turn hheld₂).bind
      rintro signerId st₃ ⟨v₂, hv₂, rfl⟩
      have hheld₃ : (((st.load v₀).load v₁).load v₂).held = none := hheld
      apply (sign_turn hheld₃ _).bind
      rintro signature st₄ ⟨v, s, hs, hsign, rfl⟩
      refine ⟨st.loads, v₀, v₁, v₂, v, s, ?_, rfl, ⟨hv₂, hv₀⟩, hs, hsign⟩
      simp [Turn.take, Turn.load]

theorem sendWith_turn (hheld : st.held = none) (receiverId : AccountId) (actions : List Action)
    (waitUntil : TxExecutionStatus) {invalidate : CacheKey → SendReply → Task Unit}
    (hinvalidate : Invalidates invalidate) (result : SignedTransaction → SendReply → Result α) :
    Follows (turnProtocol cr ks) (fun _ st' => st'.held = none) st
      (sendWith cr (ks.ext cr) receiverId actions waitUntil invalidate result) := by
  apply sendWith_frame (K := fun _ (st' : Turn) => st'.held = none)
    (S := fun _ signed (st' : Turn) => st'.Took cr ks signed)
  · apply (accountId_turn hheld).bind
    rintro accountId st₁ ⟨v, -, rfl⟩
    have hheld₁ : (st.load v).held = none := hheld
    apply (publicKey_turn hheld₁).bind
    rintro publicKey st₂ ⟨v', -, rfl⟩
    exact hheld
  · intro key st' hheld'
    exact signTx_turn hheld' receiverId actions
  · intro key err st' hheld'
    exact hheld'
  · intro key stx st' hsigns
    refine ⟨hsigns, fun reply => ?_⟩
    apply (hinvalidate _ _ key reply (invalidateCache_turn key)).mono
    rintro _ _ rfl
    rfl

end follows

theorem turn_rule (cr : Crypto) (ks : KeyRotatingSigner) :
    JobRule cr (turnProtocol cr ks) (fun st => st.held = none) (fun signer => signer = ks.ext cr)
      fun _ => True where
  fetchNonce accountId publicKey st hheld := by
    apply (fetchNonce_turn accountId publicKey).mono
    rintro _ _ rfl
    exact hheld
  invalidateCache key _ st hheld := by
    apply (invalidateCache_turn key).mono
    rintro _ _ rfl
    exact hheld
  sendTxOnce signer receiverId actions waitUntil := by
    rintro rfl st hheld
    rw [sendTxOnce_eq]
    exact sendWith_turn hheld _ _ _ checkAndInvalidateCache_invalidates _
  sendTxAsync signer receiverId actions := by
    rintro rfl st hheld
    rw [sendTxAsync_eq]
    exact sendWith_turn hheld _ _ _ (invalidateCacheIf_invalidates _) _
  sleep _ _ hheld := ⟨trivial, fun _ => hheld⟩
  tx _ _ _ _ hheld := ⟨trivial, fun _ => hheld⟩

/-! ### The turns of a run -/

section runs

variable (cr : Crypto) (ks : KeyRotatingSigner) {ι W A : Type} [DecidableEq ι]

/-- The turns of a task that has done so much. -/
def turn (l : List (Act Op Op.Reply)) : Turn := (turnProtocol cr ks).after .start l

/-- How many transactions were submitted with a turn of the signer at place `p`. -/
def signatures [Fintype ι] (tr : List (Event ι Op Op.Reply)) (p : ℕ) : ℕ :=
  ∑ t, ((turn cr ks (acts t tr)).used.map ks.place).count p

/-- The tasks that hold a turn of the signer at place `p`, which no submission has used. -/
def holders [Fintype ι] (tr : List (Event ι Op Op.Reply)) (p : ℕ) : Finset ι :=
  Finset.univ.filter fun t => (turn cr ks (acts t tr)).held.map ks.place = some p

variable {cr ks}

theorem rotated_next {st : Turn} {e : Op} (h : st.allowed cr ks e) (r : e.Reply) :
    (st.next ks e r).used ++ (st.next ks e r).held.toList =
      st.used ++ st.held.toList ++ (rotationRead ks.counter ⟨e, r⟩).toList := by
  cases e with
  | counterLoad c =>
      by_cases hc : c = ks.counter
      · simp [Turn.next, Turn.load, rotationRead, hc]
      · simp [Turn.next, rotationRead, hc]
  | counterFetchAdd c =>
      by_cases hc : c = ks.counter
      · have hheld : st.held = none := h hc
        simp [Turn.next, Turn.take, rotationRead, hc, hheld]
      · simp [Turn.next, rotationRead, hc]
  | rpc call => cases call <;> simp [Turn.next, rotationRead]
  | _ => simp [Turn.next, rotationRead]

/-- The turns that a task has taken are those that its submissions used and the one that it holds. -/
theorem rotated_eq {st : Turn} {l : List (Act Op Op.Reply)} (h : (turnProtocol cr ks).Obeys st l) :
    ((turnProtocol cr ks).after st l).used ++ ((turnProtocol cr ks).after st l).held.toList =
      st.used ++ st.held.toList ++ l.filterMap (rotationRead ks.counter) := by
  induction l generalizing st with
  | nil => simp
  | cons a l ih =>
      obtain ⟨hallowed, hrest⟩ := h
      rw [Protocol.after_cons, ih hrest, rotated_next hallowed a.reply, List.filterMap_cons_toList,
        List.append_assoc]

variable [Fintype ι] {w : ℕ} {ep : Endpoint W A} {jobs : ι → List Job} {s₀ : Shared ι W}
  {tr : List (Event ι Op Op.Reply)} {c : Config ι (Shared ι W) Op Op.Reply Unit}

/-- The rotations that selected a place are its signatures, submitted or held. -/
theorem count_rotations (h : ∀ t, (turnProtocol cr ks).Obeys .start (acts t tr)) (p : ℕ) :
    ((rotationReads ks.counter tr).map ks.place).count p =
      signatures cr ks tr p + (holders cr ks tr p).card := by
  have htask : ∀ t, (((acts t tr).filterMap (rotationRead ks.counter)).map ks.place).count p =
      ((turn cr ks (acts t tr)).used.map ks.place).count p +
        if (turn cr ks (acts t tr)).held.map ks.place = some p then 1 else 0 := by
    intro t
    have htaken : (turn cr ks (acts t tr)).used ++ (turn cr ks (acts t tr)).held.toList =
        (acts t tr).filterMap (rotationRead ks.counter) := rotated_eq (h t)
    rw [← htaken, List.map_append, List.count_append]
    congr 1
    cases (turn cr ks (acts t tr)).held with
    | none => rfl
    | some v => simp [List.count_singleton]
  calc ((rotationReads ks.counter tr).map ks.place).count p
      = ∑ t, (((acts t tr).filterMap (rotationRead ks.counter)).map ks.place).count p := by
        rw [rotationReads, List.count_filterMap_eq_sum]
        rw [sum_acts fun a => ((rotationRead ks.counter a).toList.map ks.place).count p]
        simp only [List.count_filterMap_eq_sum]
    _ = signatures cr ks tr p + (holders cr ks tr p).card := by
        rw [Finset.sum_congr rfl fun t _ => htask t, Finset.sum_add_distrib, signatures, holders,
          Finset.card_filter]

/-- Tasks that use one client in any way, each transaction signed by one key-rotating signer: every submission
uses a turn of its own and is signed by the signer whose turn it is, a task that has ended holds no turn, and
no signer has signed more often than another but by one, and by one more for each wrap of the counter if the
number of signers does not divide its range. -/
theorem signatures_spread (cr : Crypto) (ks : KeyRotatingSigner)
    (hsigners : ∀ t, ∀ job ∈ jobs t, ∀ signer, job.signer? = some signer → signer = ks.ext cr)
    (hstart : s₀.counters ks.counter < 2 ^ w)
    (h : Run (machine w ep) (.start s₀ fun t => Job.session cr (jobs t)) tr c) :
    (∀ pre t stx level reply post, tr = pre ++ ⟨t, ⟨.rpc (.sendTx stx level), reply⟩⟩ :: post →
      (turn cr ks (acts t pre)).Signs cr ks stx) ∧
    (∀ t, c.thread t = some (.pure ()) → (turn cr ks (acts t tr)).held = none) ∧
    ∀ p < ks.signers.length, ∀ q < ks.signers.length,
      signatures cr ks tr p + (holders cr ks tr p).card ≤
        signatures cr ks tr q + (holders cr ks tr q).card + 1 +
          if ks.signers.length ∣ 2 ^ w then 0
          else (s₀.counters ks.counter + rotations ks.counter tr - 1) / 2 ^ w := by
  have hf : ∀ t, Follows (turnProtocol cr ks) (fun _ st => st.held = none) .start
      (Job.session cr (jobs t)) := fun t =>
    (turn_rule cr ks).session (fun job hjob => ⟨hsigners t job hjob, fun _ _ => trivial⟩) _ rfl
  refine ⟨?_, fun t ht => h.follows hf ht, ?_⟩
  · rintro pre t stx level reply post rfl
    exact (h.obeys_event hf).2.1
  · intro p hp q hq
    have hstretch : (rotationReads ks.counter tr).map ks.place =
        RoundRobin.stretch (2 ^ w) ks.signers.length (s₀.counters ks.counter)
          (rotations ks.counter tr) := by
      rw [rotationReads_of_run h hstart, List.map_map]
      rfl
    rw [← count_rotations (fun t => h.obeys hf t) p, ← count_rotations (fun t => h.obeys hf t) q,
      hstretch]
    split
    · rename_i hdvd
      exact RoundRobin.count_le_of_dvd hdvd hp hq
    · exact RoundRobin.count_le_of_stretch hstart hp hq

end runs

/-! ### Three transactions around a wrap -/

/-- Two transactions of one task and one of the other, all signed by three keys in turn. -/
def wrappingJobs (first : Bool) : List Job :=
  List.replicate (if first then 2 else 1)
    (.sendTxAsync (threeKeys.ext .transparent) ⟨"bob.near"⟩ [])

/-- The counter wraps after the first transaction: the first key signs twice and the last one not at all. -/
theorem signatures_spread_wrapped :
    ∃ tr c, Run (machine 64 anyEndpoint)
        (.start ⟨fun _ => 2 ^ 64 - 1, fun _ => none, .free, ()⟩ fun t =>
          Job.session .transparent (wrappingJobs t)) tr c ∧
      signatures .transparent threeKeys tr 0 = 2 ∧ signatures .transparent threeKeys tr 2 = 0 ∧
      signatures .transparent threeKeys tr 0 + (holders .transparent threeKeys tr 0).card ≤
        signatures .transparent threeKeys tr 2 + (holders .transparent threeKeys tr 2).card + 1 +
          if 3 ∣ 2 ^ 64 then 0 else (2 ^ 64 - 1 + rotations 0 tr - 1) / 2 ^ 64 := by
  have hexec : ∃ tr c, (machine 64 anyEndpoint).exec []
      (.start ⟨fun _ => 2 ^ 64 - 1, fun _ => none, .free, ()⟩ fun t =>
        Job.session .transparent (wrappingJobs t))
      (List.replicate 32 (.act true (chainReplies 0 true)) ++
        List.replicate 18 (.act false (chainReplies 0 true))) = some (tr, c) ∧
      signatures .transparent threeKeys tr 0 = 2 ∧ signatures .transparent threeKeys tr 2 = 0 :=
    ⟨_, _, rfl, rfl, rfl⟩
  obtain ⟨tr, c, hexec, hfirst, hlast⟩ := hexec
  have hrun := Run.start.exec hexec
  refine ⟨tr, c, hrun, hfirst, hlast, ?_⟩
  have hspread := signatures_spread .transparent threeKeys ?_ (by decide) hrun
  · exact hspread.2.2 0 (by decide) 2 (by decide)
  · intro t job hjob signer hsigner
    obtain rfl := List.eq_of_mem_replicate hjob
    cases hsigner
    rfl

end NearFetch
