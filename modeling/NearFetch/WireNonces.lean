import NearFetch.NonceReuse
import NearFetch.SignerAccounts
import NearFetch.Tasks

/-! # The nonces that reach the network

A nonce is drawn under a guard, returned by `fetch_nonce`, written into a transaction and submitted, and
other tasks may do the same in between.  `wireProtocol` follows one task from the return to the
submission: each submission uses up the nonce returned last, for the access key that it was returned for
(`wire_rule`).  For this the account of the signer must not change between the two reads of it
(`SignerExt.OneAccount`); the public key is read only once.

So every submission has a draw of its own (`submission_drawn`), and what is known of draws holds on the wire
(`submissions_ordered`): of two submissions with one access key the one that was drawn later has the greater
nonce, unless the entry was removed and read anew in between. -/

namespace NearFetch

open Effects FifoLock

/-! ### Signers of one account -/

/-- Whenever the signer is asked, it names the same account. -/
def SignerExt.OneAccount (signer : SignerExt) : Prop :=
  ∃ a, ∀ l x, Returns signer.accountId l x → x = a

theorem InMemorySigner.ext_oneAccount (cr : Crypto) (sg : InMemorySigner) :
    (sg.ext cr).OneAccount := by
  refine ⟨sg.accountId, fun l x h => ?_⟩
  exact (returns_pure.mp h).2

theorem KeyRotatingSigner.Of.ext_oneAccount (cr : Crypto) {ks : KeyRotatingSigner} {a : AccountId}
    (hks : ks.Of a) : (ks.ext cr).OneAccount := by
  refine ⟨a, fun l x h => ?_⟩
  obtain ⟨s, l₁, l₂, -, hs, h⟩ := returns_bind.mp h
  obtain ⟨v, l', -, hselect⟩ := returns_effect.mp hs
  obtain ⟨sg, hsg, rfl⟩ := hks v
  rw [KeyRotatingSigner.select_eq hsg] at hselect
  obtain ⟨-, rfl⟩ := returns_pure.mp hselect
  exact (returns_pure.mp h).2

/-! ### From the return to the submission -/

/-- The nonce that was returned last, with its key, as long as the task has neither submitted a transaction
nor removed an entry. -/
def wireNext : Option (CacheKey × Nonce) → (e : Op) → e.Reply → Option (CacheKey × Nonce)
  | _, .nonceReturned key result, _ => (returnedNonce result).map fun v => (key, v)
  | _, .rpc (.sendTx _ _), _ => none
  | _, .nonceRemove _, _ => none
  | st, _, _ => st

/-- A task submits the nonce that was returned to it last, for the key that it was returned for. -/
abbrev wireProtocol : Protocol Op Op.Reply where
  State := Option (CacheKey × Nonce)
  next := wireNext
  allowed
    | st, .rpc (.sendTx stx _) => st = some (stx.transaction.key, stx.transaction.nonce)
    | _, _ => True
  mayPanic _ := True

/-- Submissions and removals. -/
def Op.isCause : Op → Bool
  | .rpc (.sendTx _ _) => true
  | .nonceRemove _ => true
  | _ => false

/-- Returns, submissions and removals. -/
def Op.isWire : Op → Bool
  | .nonceReturned _ _ => true
  | e => e.isCause

theorem not_cause_of_fetch {e : Op} (he : e.isFetch = true) : e.isCause = false := by
  cases e with
  | rpc call => cases call <;> first | rfl | cases he
  | _ => first | rfl | cases he

theorem not_wire_of_fetch {e : Op} (he : e.isFetch = true) : e.isWire = false := by
  cases e with
  | nonceReturned key result => cases he
  | _ => exact not_cause_of_fetch he

section follows

variable {α : Type} {st : Option (CacheKey × Nonce)}

theorem wireNext_of_not {e : Op} (he : e.isWire = false) (r : e.Reply) : wireNext st e r = st := by
  cases e with
  | rpc call => cases call <;> first | rfl | cases he
  | nonceReturned key result => cases he
  | nonceRemove key => cases he
  | _ => rfl

theorem wire_allowed_of_not {e : Op} (he : e.isWire = false) : wireProtocol.allowed st e := by
  cases e with
  | rpc call =>
      cases call with
      | sendTx stx level => cases he
      | _ => trivial
  | _ => trivial

theorem wire_still {p : Task α} (hp : Only (fun e => e.isWire = false) p) :
    Follows wireProtocol (fun _ st' => st' = st) st p :=
  Only.follows (P := wireProtocol)
    (fun _ he => ⟨wire_allowed_of_not he, wireNext_of_not he⟩) trivial hp

theorem Synchronous.wire {p : Task α} (hp : Synchronous p) :
    Follows wireProtocol (fun _ st' => st' = st) st p := by
  apply wire_still
  apply hp.mono
  intro e he
  cases e <;> first | rfl | cases he

theorem invalidateCache_wire (key : CacheKey) :
    Follows wireProtocol (fun _ st' => st' = none) st (invalidateCache key) :=
  ⟨trivial, fun _ => ⟨trivial, fun _ => ⟨trivial, fun _ => ⟨trivial, fun _ => rfl⟩⟩⟩⟩

/-- Afterwards the nonce that the call returned, if any, is the one at hand. -/
theorem fetchNonce_wire (accountId : AccountId) (publicKey : PublicKey) :
    Follows wireProtocol
      (fun result st' => st' = (returnedNonce result).map fun v => ((accountId, publicKey), v)) st
      (fetchNonce accountId publicKey) := by
  refine fetchNonce_still (fun e he => ?_) trivial fun result => ⟨trivial, rfl⟩
  have hwire : e.isWire = false := not_wire_of_fetch he
  exact ⟨wire_allowed_of_not hwire, wireNext_of_not hwire⟩

variable (cr : Crypto) {signer : SignerExt} (hsigner : signer.OneAccount) (receiverId : AccountId)
  (actions : List Action)
include hsigner

/-- The transaction holds the nonce at hand and names the access key that it belongs to. -/
theorem signTx_wire :
    Follows wireProtocol
      (fun result st' => ∀ stx, result = .ok stx →
        st' = some (stx.transaction.key, stx.transaction.nonce)) st
      (signTx cr signer receiverId actions) := by
  obtain ⟨a, ha⟩ := hsigner
  have haccount : ∀ st, Follows wireProtocol (fun x st' => st' = st ∧ x = a) st signer.accountId :=
    fun st => signer.accountId_sync.wire.and_returns ha
  unfold signTx
  apply signer.publicKey_sync.wire.bind
  rintro pk _ rfl
  apply (haccount _).bind
  rintro accountId _ ⟨rfl, rfl⟩
  apply (fetchNonce_wire accountId pk).bind
  rintro result _ rfl
  cases result with
  | error err =>
      intro stx hstx
      cases hstx
  | ok x =>
      apply (haccount _).bind
      rintro signerId _ ⟨rfl, rfl⟩
      apply (signer.sign_sync _).wire.bind
      rintro signature _ rfl
      intro stx hstx
      cases hstx
      rfl

theorem sendWith_wire (waitUntil : TxExecutionStatus)
    {invalidate : CacheKey → SendReply → Task Unit} (hinvalidate : Invalidates invalidate)
    (result : SignedTransaction → SendReply → Result α) :
    Follows wireProtocol (fun _ _ => True) st
      (sendWith cr signer receiverId actions waitUntil invalidate result) := by
  apply sendWith_frame (K := fun _ _ => True)
    (S := fun _ signed st' => ∀ stx, signed = .ok stx →
      st' = some (stx.transaction.key, stx.transaction.nonce))
  · apply signer.accountId_sync.wire.bind
    rintro accountId st₁ _
    apply signer.publicKey_sync.wire.bind
    rintro publicKey st₂ _
    trivial
  · intro key st' _
    exact signTx_wire cr hsigner receiverId actions
  · intro key err st' _
    trivial
  · intro key stx st' hst
    refine ⟨hst stx rfl, fun reply => ?_⟩
    exact (hinvalidate _ _ key reply (invalidateCache_wire key)).mono fun _ _ _ => trivial

end follows

theorem wire_rule (cr : Crypto) :
    JobRule cr wireProtocol (fun _ => True) SignerExt.OneAccount fun _ => True where
  fetchNonce accountId publicKey _ _ :=
    (fetchNonce_wire accountId publicKey).mono fun _ _ _ => trivial
  invalidateCache key _ _ _ := (invalidateCache_wire key).mono fun _ _ _ => trivial
  sendTxOnce signer receiverId actions waitUntil hsigner _ _ := by
    rw [sendTxOnce_eq]
    exact sendWith_wire cr hsigner _ _ _ checkAndInvalidateCache_invalidates _
  sendTxAsync signer receiverId actions hsigner _ _ := by
    rw [sendTxAsync_eq]
    exact sendWith_wire cr hsigner _ _ _ (invalidateCacheIf_invalidates _) _
  sleep _ _ _ := ⟨trivial, fun _ => trivial⟩
  tx _ _ _ _ _ := ⟨trivial, fun _ => trivial⟩

/-- The nonce at hand was returned, and the task has neither submitted nor removed anything since. -/
theorem wire_returned {l : List (Act Op Op.Reply)} {key : CacheKey} {v : Nonce}
    (h : wireProtocol.after none l = some (key, v)) :
    ∃ l₁ result l₂, l = l₁ ++ ⟨.nonceReturned key result, ()⟩ :: l₂ ∧
      returnedNonce result = some v ∧ ∀ a ∈ l₂, a.effect.isCause = false := by
  induction l using List.reverseRecOn with
  | nil => cases h
  | append_singleton l a ih =>
      rw [Protocol.after_append] at h
      by_cases hwire : a.effect.isWire = true
      · obtain ⟨e, r⟩ := a
        cases e with
        | nonceReturned k result =>
            obtain ⟨u, hu, heq⟩ := Option.map_eq_some_iff.mp h
            cases heq
            exact ⟨l, result, [], rfl, hu, fun b hb => absurd hb List.not_mem_nil⟩
        | rpc call => cases call <;> first | (cases hwire; done) | cases h
        | nonceRemove k => cases h
        | _ => cases hwire
      · have hnot : a.effect.isWire = false := by simpa using hwire
        have hsame : wireProtocol.after (wireProtocol.after none l) [a] =
            wireProtocol.after none l := wireNext_of_not hnot a.reply
        rw [hsame] at h
        obtain ⟨l₁, result, l₂, rfl, hv, hl₂⟩ := ih h
        refine ⟨l₁, result, l₂ ++ [a], by simp, hv, ?_⟩
        have hcause : a.effect.isCause = false := by
          cases ha : a.effect with
          | nonceReturned k result => rfl
          | _ => rwa [ha] at hnot
        intro b hb
        rcases List.mem_append.mp hb with hb | hb
        · exact hl₂ b hb
        · rw [List.mem_singleton.mp hb]
          exact hcause

/-! ### The order on the wire -/

section order

variable {ι : Type}

/-- The event is the draw of the transaction's nonce by task `t`. -/
def Draws (t : ι) (tx : Transaction) (ev : Event ι Op Op.Reply) : Prop :=
  ev.thread = t ∧ drawnNonce ev.act = some (tx.key, tx.nonce)

/-- After the events `pre` task `t` has drawn the nonce of `tx`, and since then it has neither submitted nor
removed anything. -/
def HasDrawn [DecidableEq ι] (t : ι) (tx : Transaction) (pre : List (Event ι Op Op.Reply)) : Prop :=
  ∃ p a m, pre = p ++ ⟨t, a⟩ :: m ∧ drawnNonce a = some (tx.key, tx.nonce) ∧
    ∀ b ∈ acts t m, b.effect.isCause = false

/-- Task `t` drew the nonce of `tx` before task `u` drew that of `tx'`, which is the greater one unless the
entry was removed in between and read anew below it. -/
def DrawnBefore (tr : List (Event ι Op Op.Reply)) (t : ι) (tx : Transaction) (u : ι)
    (tx' : Transaction) : Prop :=
  ∃ p ev₁ seg ev₂ q, tr = p ++ ev₁ :: (seg ++ ev₂ :: q) ∧ Draws t tx ev₁ ∧ Draws u tx' ev₂ ∧
    (tx.nonce < tx'.nonce ∨ ∃ n before, Refetched tx'.key n before seg ∧ n < tx'.nonce)

variable {W A α : Type} [DecidableEq ι] {w : ℕ} {ep : Endpoint W A} {counters : CounterId → ℕ}
  {e₀ : W} {prog : ι → Task α} {c : Config ι (Shared ι W) Op Op.Reply α}

theorem submission_drawn (hd : ∀ t, Disciplined (prog t))
    (hw : ∀ t, Keeps wireProtocol (fun _ => True) (prog t)) {s₀ : Shared ι W}
    {pre post : List (Event ι Op Op.Reply)} {t : ι} {stx : SignedTransaction}
    {level : TxExecutionStatus} {reply : SendReply}
    (h : Run (machine w ep) (.start s₀ prog) (pre ++ ⟨t, ⟨.rpc (.sendTx stx level), reply⟩⟩ :: post)
      c) : HasDrawn t stx.transaction pre := by
  have hf : ∀ t, Follows wireProtocol (fun _ _ => True) none (prog t) := fun t => hw t none trivial
  obtain ⟨-, hsend, -⟩ := h.obeys_event hf
  obtain ⟨l₁, result, l₂, hl, hv, hl₂⟩ := wire_returned hsend
  obtain ⟨pre', mid, rfl, -, rfl⟩ := acts_eq_append hl
  -- the nonce that was returned had been drawn
  rw [List.append_assoc, List.cons_append] at h
  obtain ⟨ho, hreturn, -⟩ := h.obeys_event hd
  have hpending : (nonceProtocol.after .idle (acts t pre')).pending =
      some (stx.transaction.key, stx.transaction.nonce) := by
    rw [Phase.allowed_nonceReturned hreturn, hv]
    rfl
  obtain ⟨l₃, a, l₄, hl', ha, hl₄⟩ := drawn_behind ho hpending
  obtain ⟨p, m, rfl, -, rfl⟩ := acts_eq_append hl'
  refine ⟨p, a, m ++ ⟨t, ⟨.nonceReturned stx.transaction.key result, ()⟩⟩ :: mid, by simp, ha, ?_⟩
  intro b hb
  rw [acts_append, acts_cons_self] at hb
  rcases List.mem_append.mp hb with hb | hb
  · have hfinish := hl₄ b hb
    cases hb' : b.effect with
    | rpc call => cases call <;> first | rfl | (rw [hb'] at hfinish; cases hfinish)
    | nonceRemove k =>
        rw [hb'] at hfinish
        cases hfinish
    | _ => rfl
  · rcases List.mem_cons.mp hb with rfl | hb
    · rfl
    · exact hl₂ b hb

theorem ne_of_submitted {mid : List (Event ι Op Op.Reply)} {t u : ι} {stx : SignedTransaction}
    {level : TxExecutionStatus} {reply : SendReply}
    (hmem : ⟨t, ⟨.rpc (.sendTx stx level), reply⟩⟩ ∈ mid)
    (h : ∀ b ∈ acts u mid, b.effect.isCause = false) : t ≠ u := by
  rintro rfl
  cases h _ (mem_acts.mpr hmem)

theorem drawnBefore_of_draws (hd : ∀ t, Disciplined (prog t))
    {tr p seg q : List (Event ι Op Op.Reply)} {ev₁ ev₂ : Event ι Op Op.Reply} {t u : ι}
    {tx tx' : Transaction}
    (h : Run (machine w ep) (.start ⟨counters, fun _ => none, .free, e₀⟩ prog) tr c)
    (hno : NoOverflow tr) (htr : tr = p ++ ev₁ :: (seg ++ ev₂ :: q)) (hkey : tx.key = tx'.key)
    (h₁ : Draws t tx ev₁) (h₂ : Draws u tx' ev₂) : DrawnBefore tr t tx u tx' := by
  subst htr
  refine ⟨p, ev₁, seg, ev₂, q, rfl, h₁, h₂, ?_⟩
  rcases Nat.lt_or_ge tx.nonce tx'.nonce with hlt | hle
  · exact .inl hlt
  · exact .inr (refetched_of_le hd h hno (hkey ▸ h₁.2) h₂.2 hle)

/-- Two submissions of a run, in this order, and which of their nonces was drawn first. -/
theorem drawnBefore_of_submissions (hd : ∀ t, Disciplined (prog t))
    (hw : ∀ t, Keeps wireProtocol (fun _ => True) (prog t))
    {tr pre mid post : List (Event ι Op Op.Reply)} {t u : ι} {stx stx' : SignedTransaction}
    {level level' : TxExecutionStatus} {reply reply' : SendReply}
    (h : Run (machine w ep) (.start ⟨counters, fun _ => none, .free, e₀⟩ prog) tr c)
    (hno : NoOverflow tr)
    (htr : tr = pre ++ ⟨t, ⟨.rpc (.sendTx stx level), reply⟩⟩ ::
      (mid ++ ⟨u, ⟨.rpc (.sendTx stx' level'), reply'⟩⟩ :: post))
    (hkey : stx.transaction.key = stx'.transaction.key) :
    DrawnBefore tr t stx.transaction u stx'.transaction ∨
      t ≠ u ∧ DrawnBefore tr u stx'.transaction t stx.transaction := by
  have h₁ := h
  rw [htr] at h₁
  have h₂ := h₁
  rw [← List.cons_append, ← List.append_assoc] at h₂
  obtain ⟨p₁, a₁, m₁, hp₁, ha₁, -⟩ := submission_drawn hd hw h₁
  obtain ⟨p₂, a₂, m₂, hp₂, ha₂, hm₂⟩ := submission_drawn hd hw h₂
  have hboth : p₁ ++ ⟨t, a₁⟩ :: (m₁ ++ ⟨t, ⟨.rpc (.sendTx stx level), reply⟩⟩ :: mid) =
      p₂ ++ ⟨u, a₂⟩ :: m₂ := by
    rw [← hp₂, hp₁]
    simp
  have hsubmitted : (⟨t, ⟨.rpc (.sendTx stx level), reply⟩⟩ : Event ι Op Op.Reply) ∈
      m₁ ++ ⟨t, ⟨.rpc (.sendTx stx level), reply⟩⟩ :: mid := by
    simp
  have hdraw₁ : Draws t stx.transaction ⟨t, a₁⟩ := ⟨rfl, ha₁⟩
  have hdraw₂ : Draws u stx'.transaction ⟨u, a₂⟩ := ⟨rfl, ha₂⟩
  rcases List.split_trichotomy hboth with ⟨k, hk, -⟩ | ⟨-, hev, hm⟩ | ⟨k, hk, hm⟩
  · have hsplit : tr = p₁ ++ ⟨t, a₁⟩ :: (k ++ ⟨u, a₂⟩ ::
        (m₂ ++ ⟨u, ⟨.rpc (.sendTx stx' level'), reply'⟩⟩ :: post)) := by
      rw [htr, ← List.cons_append, ← List.append_assoc, hp₂, hk]
      simp
    exact .inl (drawnBefore_of_draws hd h hno hsplit hkey hdraw₁ hdraw₂)
  · -- one draw cannot stand behind both, for the task has submitted in between
    rw [hm] at hsubmitted
    exact absurd (congrArg Event.thread hev) (ne_of_submitted hsubmitted hm₂)
  · have hne : t ≠ u := ne_of_submitted (hm ▸ List.mem_append_right _
      (List.mem_cons_of_mem _ hsubmitted)) hm₂
    have hsplit : tr = p₂ ++ ⟨u, a₂⟩ :: (k ++ ⟨t, a₁⟩ ::
        (m₁ ++ ⟨t, ⟨.rpc (.sendTx stx level), reply⟩⟩ ::
          (mid ++ ⟨u, ⟨.rpc (.sendTx stx' level'), reply'⟩⟩ :: post))) := by
      rw [htr, hp₁, hk]
      simp
    exact .inr ⟨hne, drawnBefore_of_draws hd h hno hsplit hkey.symm hdraw₂ hdraw₁⟩

/-- Tasks that use one client in any way, each transaction signed by a signer of one account: every submission
has a draw of its own, and of two submissions with one access key the one whose nonce was drawn later has the
greater nonce, or the entry was removed in between and the access key read anew below that nonce.  The
submissions of one task are drawn in the order in which they are sent. -/
theorem submissions_ordered (cr : Crypto) (jobs : ι → List Job)
    (hsigners : ∀ t, ∀ job ∈ jobs t, ∀ signer, job.signer? = some signer → signer.OneAccount)
    {c : Config ι (Shared ι W) Op Op.Reply Unit} {tr : List (Event ι Op Op.Reply)}
    (h : Run (machine w ep)
      (.start ⟨counters, fun _ => none, .free, e₀⟩ fun t => Job.session cr (jobs t)) tr c)
    (hno : NoOverflow tr) :
    (∀ pre post t stx level reply, tr = pre ++ ⟨t, ⟨.rpc (.sendTx stx level), reply⟩⟩ :: post →
      HasDrawn t stx.transaction pre) ∧
    ∀ pre mid post t stx level reply u stx' level' reply',
      tr = pre ++ ⟨t, ⟨.rpc (.sendTx stx level), reply⟩⟩ ::
        (mid ++ ⟨u, ⟨.rpc (.sendTx stx' level'), reply'⟩⟩ :: post) →
      stx.transaction.key = stx'.transaction.key →
      DrawnBefore tr t stx.transaction u stx'.transaction ∨
        t ≠ u ∧ DrawnBefore tr u stx'.transaction t stx.transaction := by
  have hd : ∀ t, Disciplined (Job.session cr (jobs t)) := fun t =>
    Job.session_disciplined cr (jobs t)
  have hw : ∀ t, Keeps wireProtocol (fun _ => True) (Job.session cr (jobs t)) := fun t =>
    (wire_rule cr).session fun job hjob => ⟨hsigners t job hjob, fun _ _ => trivial⟩
  constructor
  · rintro pre post t stx level reply rfl
    exact submission_drawn hd hw h
  · intro pre mid post t stx level reply u stx' level' reply' htr hkey
    exact drawnBefore_of_submissions hd hw h hno htr hkey

end order

/-! ### Two transactions that cross -/

section crossing

/-- Two transactions of Alice. -/
def crossingJobs (receiver : Bool) : List Job :=
  [.sendTx ⟨alice.ext .transparent, ⟨if receiver then "bob.near" else "carol.near"⟩,
    .ok [.transfer 1], none, .executedOptimistic⟩]

/-- The first draws 1, the second draws 2 and is sent at once, and then the first is sent. -/
def crossing {A : Type} : List (Move Bool A Op Op.Reply) :=
  List.replicate 11 (.act true (chainReplies 0 true)) ++
    List.replicate 8 (.act false (chainReplies 0 true)) ++ [.act true (chainReplies 2 false)]

/-- The nonces are ordered as they were drawn, not as they were sent. -/
theorem submissions_ordered_crossing :
    ∃ tr c, Run (machine 64 honestChain)
        (.start ⟨fun _ => 0, fun _ => none, .free, ⟨fun _ => 0, [], []⟩⟩ fun t =>
          Job.session .transparent (crossingJobs t)) tr c ∧
      ∃ tx tx', tx.key = tx'.key ∧ tx.nonce = 2 ∧ tx'.nonce = 1 ∧ HasDrawn false tx (tr.take 18) ∧
        (DrawnBefore tr false tx true tx' ∨ false ≠ true ∧ DrawnBefore tr true tx' false tx) := by
  have hexec : ∃ tr c stx stx' reply reply', (machine 64 honestChain).exec []
      (.start ⟨fun _ => 0, fun _ => none, .free, ⟨fun _ => 0, [], []⟩⟩ fun t =>
        Job.session .transparent (crossingJobs t)) crossing = some (tr, c) ∧
        NoOverflow tr ∧
        tr = tr.take 18 ++ ⟨false, ⟨.rpc (.sendTx stx .executedOptimistic), reply⟩⟩ ::
          ([] ++ ⟨true, ⟨.rpc (.sendTx stx' .executedOptimistic), reply'⟩⟩ :: []) ∧
        stx.transaction.key = stx'.transaction.key ∧ stx.transaction.nonce = 2 ∧
          stx'.transaction.nonce = 1 :=
    ⟨_, _, _, _, _, _, rfl, by unfold NoOverflow; decide, rfl, rfl, rfl, rfl⟩
  obtain ⟨tr, c, stx, stx', reply, reply', hexec, hno, htr, hkey, hn, hn'⟩ := hexec
  have hrun := Run.start.exec hexec
  have hsigners : ∀ t, ∀ job ∈ crossingJobs t, ∀ signer, job.signer? = some signer →
      signer.OneAccount := by
    intro t job hjob signer hsigner
    cases List.mem_singleton.mp hjob
    cases hsigner
    exact alice.ext_oneAccount .transparent
  obtain ⟨hdrawn, hordered⟩ := submissions_ordered .transparent crossingJobs hsigners hrun hno
  exact ⟨tr, c, hrun, stx.transaction, stx'.transaction, hkey, hn, hn',
    hdrawn _ _ _ _ _ _ htr, hordered _ _ _ _ _ _ _ _ _ _ _ htr hkey⟩

end crossing

end NearFetch
