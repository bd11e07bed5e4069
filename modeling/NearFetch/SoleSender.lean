import NearFetch.Overtaking

/-! # A key of one task

Which keys a task sends with, and which entries it removes, is known from its jobs: `keyProtocol` allows the
keys that their signers name (`SignerExt.Uses`) and those that the jobs remove of their own accord.

A key that one task alone sends with, and whose entry no other task removes, is never overtaken
(`sole_sender_accepted`): the overtaking transaction would be of the same task, which had drawn it before,
and a lower nonce is drawn later only after a removal. -/

namespace NearFetch

open Effects FifoLock

/-- Whatever the signer names is one of the keys. -/
def SignerExt.Uses (signer : SignerExt) (keys : CacheKey → Prop) : Prop :=
  ∀ l x l' y, Returns signer.accountId l x → Returns signer.publicKey l' y → keys (x, y)

theorem InMemorySigner.ext_uses (cr : Crypto) (sg : InMemorySigner) {keys : CacheKey → Prop}
    (h : keys (sg.accountId, sg.publicKey)) : (sg.ext cr).Uses keys := by
  intro l x l' y hx hy
  rw [(returns_pure.mp hx).2, (returns_pure.mp hy).2]
  exact h

/-- Transactions are submitted and entries removed for these keys only. -/
abbrev keyProtocol (keys : CacheKey → Prop) : Protocol Op Op.Reply where
  State := Unit
  next _ _ _ := ()
  allowed
    | _, .rpc (.sendTx stx _) => keys stx.transaction.key
    | _, .nonceRemove key => keys key
    | _, _ => True
  mayPanic _ := True

section keys

variable {α : Type} {keys : CacheKey → Prop}

theorem keys_allowed_of_not {e : Op} (he : e.isCause = false) : (keyProtocol keys).allowed () e := by
  cases e with
  | rpc call => cases call <;> trivial
  | nonceRemove key => cases he
  | _ => trivial

theorem keys_still {p : Task α} (hp : Only (fun e => e.isCause = false) p) :
    Follows (keyProtocol keys) (fun _ _ => True) () p := by
  have hfol : Follows (keyProtocol keys) (fun _ m => m = ()) () p :=
    hp.follows (fun e he => ⟨keys_allowed_of_not he, fun _ => rfl⟩) trivial
  exact hfol.mono fun _ _ _ => trivial

theorem Synchronous.inKeys {p : Task α} (hp : Synchronous p) :
    Follows (keyProtocol keys) (fun a _ => ∃ l, Returns p l a) () p := by
  have hstill : Follows (keyProtocol keys) (fun _ _ => True) () p := by
    apply keys_still
    apply hp.mono
    intro e he
    cases e <;> first | rfl | cases he
  apply (hstill.and_returns (S := fun a => ∃ l, Returns p l a) fun l a h => ⟨l, h⟩).mono
  rintro a m ⟨-, hreturns⟩
  exact hreturns

theorem fetchNonce_keys (accountId : AccountId) (publicKey : PublicKey) :
    Follows (keyProtocol keys) (fun _ _ => True) () (fetchNonce accountId publicKey) := by
  refine fetchNonce_still (fun e he => ?_) trivial fun result => ⟨trivial, trivial⟩
  exact ⟨keys_allowed_of_not (not_cause_of_fetch he), fun _ => rfl⟩

theorem invalidateCache_keys {key : CacheKey} (h : keys key) :
    Follows (keyProtocol keys) (fun _ m => m = ()) () (invalidateCache key) :=
  ⟨trivial, fun _ => ⟨trivial, fun _ => ⟨h, fun _ => ⟨trivial, fun _ => rfl⟩⟩⟩⟩

variable (cr : Crypto) {signer : SignerExt} (hsigner : signer.Uses keys) (receiverId : AccountId)
  (actions : List Action)
include hsigner

theorem signTx_keys :
    Follows (keyProtocol keys) (fun result _ => ∀ stx, result = .ok stx → keys stx.transaction.key) ()
      (signTx cr signer receiverId actions) := by
  unfold signTx
  apply signer.publicKey_sync.inKeys.bind
  rintro pk _ ⟨l, hpk⟩
  apply signer.accountId_sync.inKeys.bind
  rintro accountId _ -
  apply (fetchNonce_keys accountId pk).bind
  rintro result _ -
  cases result with
  | error err =>
      intro stx hstx
      cases hstx
  | ok x =>
      apply signer.accountId_sync.inKeys.bind
      rintro signerId _ ⟨l', hsignerId⟩
      apply (signer.sign_sync _).inKeys.bind
      rintro signature _ - stx hstx
      cases hstx
      exact hsigner l' signerId l pk hsignerId hpk

theorem sendWith_keys (waitUntil : TxExecutionStatus)
    {invalidate : CacheKey → SendReply → Task Unit} (hinvalidate : Invalidates invalidate)
    (result : SignedTransaction → SendReply → Result α) :
    Follows (keyProtocol keys) (fun _ _ => True) ()
      (sendWith cr signer receiverId actions waitUntil invalidate result) := by
  apply sendWith_frame (K := fun key _ => keys key)
    (S := fun key signed _ => keys key ∧ ∀ stx, signed = .ok stx → keys stx.transaction.key)
  · apply signer.accountId_sync.inKeys.bind
    rintro accountId _ ⟨l, haccountId⟩
    apply signer.publicKey_sync.inKeys.bind
    rintro publicKey _ ⟨l', hpublicKey⟩
    exact hsigner l accountId l' publicKey haccountId hpublicKey
  · rintro key _ hkey
    exact (signTx_keys cr hsigner receiverId actions).mono fun signed _ hsigned => ⟨hkey, hsigned⟩
  · intro key err _ _
    trivial
  · rintro key stx _ ⟨hkey, hstx⟩
    refine ⟨hstx stx rfl, fun reply => ?_⟩
    exact (hinvalidate _ _ key reply (invalidateCache_keys hkey)).mono fun _ _ _ => trivial

end keys

theorem key_rule (cr : Crypto) (keys : CacheKey → Prop) :
    JobRule cr (keyProtocol keys) (fun _ => True) (fun signer => signer.Uses keys) keys where
  fetchNonce accountId publicKey _ _ := fetchNonce_keys accountId publicKey
  invalidateCache key hkey _ _ := (invalidateCache_keys hkey).mono fun _ _ _ => trivial
  sendTxOnce signer receiverId actions waitUntil hsigner _ _ := by
    rw [sendTxOnce_eq]
    exact sendWith_keys cr hsigner _ _ _ checkAndInvalidateCache_invalidates _
  sendTxAsync signer receiverId actions hsigner _ _ := by
    rw [sendTxAsync_eq]
    exact sendWith_keys cr hsigner _ _ _ (invalidateCacheIf_invalidates _) _
  sleep _ _ _ := ⟨trivial, fun _ => trivial⟩
  tx _ _ _ _ _ := ⟨trivial, fun _ => trivial⟩

section runs

variable {ι W A : Type} [DecidableEq ι] {w : ℕ} {ep : Endpoint W A} {s₀ : Shared ι W}
  {jobs : ι → List Job} {tr : List (Event ι Op Op.Reply)}
  {c : Config ι (Shared ι W) Op Op.Reply Unit}

theorem keys_of_run (cr : Crypto) {keys : CacheKey → Prop} {t : ι}
    (hjobs : ∀ job ∈ jobs t, job.Within (fun signer => signer.Uses keys) keys)
    (h : Run (machine w ep) (.start s₀ fun t => Job.session cr (jobs t)) tr c)
    {a : Act Op Op.Reply} (hmem : ⟨t, a⟩ ∈ tr) : (keyProtocol keys).allowed () a.effect := by
  obtain ⟨pre, post, rfl⟩ := List.append_of_mem hmem
  obtain ⟨q, hq, -⟩ := h.leads t
  obtain ⟨ho, -⟩ := (((key_rule cr keys).session hjobs) () trivial).leads hq
  rw [acts_append, acts_cons_self] at ho
  exact ho.append.2.1

end runs

/-- If a task draws a nonce after it has submitted one that is not below, then the entry was removed: after the
submission, or before it by another task. -/
theorem removed_of_lower_draw {ι W A α : Type} [DecidableEq ι] {w : ℕ} {ep : Endpoint W A}
    {counters : CounterId → ℕ} {e₀ : W} {prog : ι → Task α} {c : Config ι (Shared ι W) Op Op.Reply α}
    (hd : ∀ t, Disciplined (prog t)) (hw : ∀ t, Keeps wireProtocol (fun _ => True) (prog t))
    {pre mid post : List (Event ι Op Op.Reply)} {t : ι} {stx : SignedTransaction}
    {level : TxExecutionStatus} {reply : SendReply} {a : Act Op Op.Reply} {v : Nonce}
    (h : Run (machine w ep) (.start ⟨counters, fun _ => none, .free, e₀⟩ prog)
      (pre ++ ⟨t, ⟨.rpc (.sendTx stx level), reply⟩⟩ :: (mid ++ ⟨t, a⟩ :: post)) c)
    (hno : NoOverflow (pre ++ ⟨t, ⟨.rpc (.sendTx stx level), reply⟩⟩ :: (mid ++ ⟨t, a⟩ :: post)))
    (ha : drawnNonce a = some (stx.transaction.key, v)) (hle : v ≤ stx.transaction.nonce) :
    ∃ z, ⟨z, ⟨.nonceRemove stx.transaction.key, ()⟩⟩ ∈ mid ∨
      z ≠ t ∧ ⟨z, ⟨.nonceRemove stx.transaction.key, ()⟩⟩ ∈ pre := by
  obtain ⟨p, a', m, rfl, ha', hm⟩ := submission_drawn hd hw h
  have hsplit : (p ++ ⟨t, a'⟩ :: m) ++ ⟨t, ⟨.rpc (.sendTx stx level), reply⟩⟩ ::
      (mid ++ ⟨t, a⟩ :: post) =
        p ++ ⟨t, a'⟩ :: ((m ++ ⟨t, ⟨.rpc (.sendTx stx level), reply⟩⟩ :: mid) ++ ⟨t, a⟩ :: post) := by
    simp
  rw [hsplit] at h hno
  obtain ⟨n, before, ⟨_, _, _, rest, hseg, -, z, hz⟩, -⟩ := refetched_of_le hd h hno ha' ha hle
  have hremoved : (⟨z, ⟨.nonceRemove stx.transaction.key, ()⟩⟩ : Event ι Op Op.Reply) ∈
      m ++ ⟨t, ⟨.rpc (.sendTx stx level), reply⟩⟩ :: mid := by
    rw [hseg]
    exact List.mem_append_left _ hz
  refine ⟨z, ?_⟩
  rcases List.mem_append.mp hremoved with hin | hin
  · -- between its draw and the submission the task removes nothing
    refine .inr ⟨?_, List.mem_append_right _ (List.mem_cons_of_mem _ hin)⟩
    rintro rfl
    cases hm _ (mem_acts.mpr hin)
  · rcases List.mem_cons.mp hin with heq | hin
    · cases heq
    · exact .inl hin

section sole

variable {ι : Type} [DecidableEq ι] {w : ℕ} {own : CacheKey → Prop} {counters : CounterId → ℕ}
  {ch : Chain} {jobs : ι → List Job} {key : CacheKey} {t : ι}

/-- Tasks that use one client in any way, each transaction signed by a signer of one account, on a chain where
others do not use the key.  If one task alone sends with the key, and no other removes its entry, then no
transaction of the key is ever rejected because of its nonce, whatever else the tasks do. -/
theorem sole_sender_accepted (cr : Crypto)
    (hsigners : ∀ u, ∀ job ∈ jobs u, ∀ signer, job.signer? = some signer → signer.OneAccount)
    (hothers : ∀ u, u ≠ t → ∀ job ∈ jobs u,
      job.Within (fun signer => signer.Uses fun k => k ≠ key) fun k => k ≠ key)
    (hown : own key) {c : Config ι (Shared ι Chain) Op Op.Reply Unit}
    {tr : List (Event ι Op Op.Reply)}
    (h : Run (machine w (privateChain own))
      (.start ⟨counters, fun _ => none, .free, ch⟩ fun t => Job.session cr (jobs t)) tr c)
    (hno : NoOverflow tr) {u : ι} {stx : SignedTransaction} {level : TxExecutionStatus}
    {reply : SendReply} (hmem : ⟨u, ⟨.rpc (.sendTx stx level), reply⟩⟩ ∈ tr)
    (hkey : stx.transaction.key = key) : SendReply.invalidNonce reply = false := by
  have hd : ∀ t, Disciplined (Job.session cr (jobs t)) := fun t =>
    Job.session_disciplined cr (jobs t)
  have hw : ∀ t, Keeps wireProtocol (fun _ => True) (Job.session cr (jobs t)) := fun t =>
    (wire_rule cr).session fun job hjob => ⟨hsigners t job hjob, fun _ _ => trivial⟩
  have hsender : ∀ {u stx level reply},
      (⟨u, ⟨.rpc (.sendTx stx level), reply⟩⟩ : Event ι Op Op.Reply) ∈ tr →
        stx.transaction.key = key → u = t := by
    intro u stx level reply hmem hkey
    by_contra hne
    exact keys_of_run cr (hothers u hne) h hmem hkey
  have hremover : ∀ {u}, (⟨u, ⟨.nonceRemove key, ()⟩⟩ : Event ι Op Op.Reply) ∈ tr → u = t := by
    intro u hmem
    by_contra hne
    exact keys_of_run cr (hothers u hne) h hmem rfl
  subst hkey
  by_contra hrejected
  rw [Bool.not_eq_false] at hrejected
  obtain rfl := hsender hmem rfl
  obtain ⟨pre, post, htr⟩ := List.append_of_mem hmem
  obtain ⟨p₁, s, reference, reply₀, b, p₂, a, m, q₁, ev, stx', q₂, hpre, hmid, -, -, ha, hm, hstems,
    ⟨level', reply', hact, -⟩, hkey', hle⟩ := overtaken hd hw hown h hno htr hrejected
  obtain ⟨v, act⟩ := ev
  obtain rfl : act = _ := hact
  have hevent : (⟨v, ⟨.rpc (.sendTx stx' level'), reply'⟩⟩ : Event ι Op Op.Reply) ∈ tr := by
    rw [htr, hpre, hmid]
    simp
  obtain rfl := hsender hevent hkey'
  rcases List.split_trichotomy hmid with ⟨k, -, rfl⟩ | ⟨-, heq, -⟩ | ⟨k, rfl, -⟩
  · -- after the draw the task submits nothing else
    cases hm _ (mem_acts.mpr (List.mem_append_right _ List.mem_cons_self))
  · cases heq
    cases ha
  · -- the task drew for the overtaking transaction before, and the entry was not removed since
    have hsplit : tr = (p₁ ++ ⟨s, ⟨.rpc (.query reference (.viewAccessKey stx.transaction.key.1
        stx.transaction.key.2)), reply₀⟩⟩ :: q₁) ++ ⟨v, ⟨.rpc (.sendTx stx' level'), reply'⟩⟩ ::
          (k ++ ⟨v, a⟩ :: (m ++ ⟨v, ⟨.rpc (.sendTx stx level), reply⟩⟩ :: post)) := by
      rw [htr, hpre]
      simp
    have h' := h
    have hno' := hno
    rw [hsplit] at h' hno'
    have hkept := hstems.kept
    rw [← hkey'] at ha hkept
    obtain ⟨z, hz | ⟨hne, hz⟩⟩ := removed_of_lower_draw hd hw h' hno' ha hle
    · exact hkept z (by simp [hz])
    · rw [hkey'] at hz
      refine hne (hremover ?_)
      rw [hsplit]
      exact List.mem_append_left _ hz

/-- A key of Carol. -/
def carol : InMemorySigner := ⟨⟨"carol.near"⟩, ⟨[2]⟩, ⟨[2]⟩⟩

/-- One task sends for Alice and the other for Carol. -/
def separateJobs (forAlice : Bool) : List Job :=
  [.sendTx ⟨if forAlice then alice.ext .transparent else carol.ext .transparent, ⟨"bob.near"⟩,
    .ok [.transfer 1], none, .executedOptimistic⟩]

theorem sole_sender_accepted_alice :
    ∃ tr c, Run (machine 64 (privateChain fun _ => True))
        (.start ⟨fun _ => 0, fun _ => none, .free, ⟨fun _ => 0, [], []⟩⟩ fun t =>
          Job.session .transparent (separateJobs t)) tr c ∧
      ∃ stx level reply, ⟨true, ⟨.rpc (.sendTx stx level), reply⟩⟩ ∈ tr ∧
        stx.transaction.key = (alice.accountId, alice.publicKey) ∧
        SendReply.invalidNonce reply = false := by
  have hexec : ∃ tr c stx reply, (machine 64 (privateChain fun _ => True)).exec []
      (.start ⟨fun _ => 0, fun _ => none, .free, ⟨fun _ => 0, [], []⟩⟩ fun t =>
        Job.session .transparent (separateJobs t))
      (List.replicate 12 (.act false (chainReplies 0 true)) ++
        List.replicate 12 (.act true (chainReplies 0 true))) = some (tr, c) ∧ NoOverflow tr ∧
      tr[23]? = some ⟨true, ⟨.rpc (.sendTx stx .executedOptimistic), reply⟩⟩ ∧
      stx.transaction.key = (alice.accountId, alice.publicKey) :=
    ⟨_, _, _, _, rfl, by unfold NoOverflow; decide, rfl, rfl⟩
  obtain ⟨tr, c, stx, reply, hexec, hno, hsent, hkey⟩ := hexec
  have hrun := Run.start.exec hexec
  have hmem := List.mem_of_getElem? hsent
  have hsigners : ∀ u, ∀ job ∈ separateJobs u, ∀ signer, job.signer? = some signer →
      signer.OneAccount := by
    intro u job hjob signer hsigner
    cases List.mem_singleton.mp hjob
    cases hsigner
    cases u with
    | true => exact alice.ext_oneAccount .transparent
    | false => exact carol.ext_oneAccount .transparent
  have hothers : ∀ u, u ≠ true → ∀ job ∈ separateJobs u,
      job.Within (fun signer => signer.Uses fun k => k ≠ (alice.accountId, alice.publicKey))
        fun k => k ≠ (alice.accountId, alice.publicKey) := by
    intro u hu job hjob
    rw [Bool.eq_false_of_not_eq_true hu] at hjob
    cases List.mem_singleton.mp hjob
    refine ⟨fun signer hsigner => ?_, fun k hk => ?_⟩
    · cases hsigner
      exact carol.ext_uses .transparent (by decide)
    · cases hk
  exact ⟨tr, c, hrun, stx, .executedOptimistic, reply, hmem, hkey,
    sole_sender_accepted .transparent hsigners hothers trivial hrun hno hmem hkey⟩

end sole

end NearFetch
