import NearFetch.WireNonces

/-! # Why a transaction is rejected

On a chain where nobody else uses a key, the nonce of the key is the one that was accepted last
(`chainNonce_of_run`), and a draw is above the nonce that was reported when its entry was read
(`reported_below`).  So a transaction is rejected only if in the meantime another one of the client, with
the same key and a nonce not below, was accepted (`rejected_overtaken`): the client overtook itself. -/

namespace NearFetch

open Effects FifoLock TicketCounter

/-- An honest chain on which others do not use the keys in `own`. -/
def privateChain (own : CacheKey → Prop) : Endpoint Chain {a : CacheKey × Nonce // ¬ own a.1} where
  serve := honestChain.serve
  drift a := honestChain.drift a

/-! ### The nonce on the chain -/

/-- The nonce that a chain accepts for the key with the effect. -/
def acceptedNonce (key : CacheKey) : Act Op Op.Reply → Option Nonce
  | ⟨.rpc (.sendTx stx _), reply⟩ =>
      if stx.transaction.key = key ∧ SendReply.invalidNonce reply = false then
        some stx.transaction.nonce else none
  | _ => none

theorem acceptedNonce_eq_some {key : CacheKey} {a : Act Op Op.Reply} {v : Nonce}
    (h : acceptedNonce key a = some v) : ∃ stx level reply,
      a = ⟨.rpc (.sendTx stx level), reply⟩ ∧ stx.transaction.key = key ∧
        stx.transaction.nonce = v ∧ SendReply.invalidNonce reply = false := by
  obtain ⟨e, r⟩ := a
  cases e with
  | rpc call =>
      cases call with
      | sendTx stx level =>
          obtain ⟨⟨hkey, haccepted⟩, hv⟩ := Option.ite_none_right_eq_some.mp h
          exact ⟨stx, level, r, rfl, hkey, Option.some.inj hv, haccepted⟩
      | _ => cases h
  | _ => cases h

/-- The nonces that were accepted for the key, oldest first. -/
def acceptedNonces {ι : Type} (key : CacheKey) (tr : List (Event ι Op Op.Reply)) : List Nonce :=
  tr.filterMap fun ev => acceptedNonce key ev.act

theorem acceptedNonces_append {ι : Type} (key : CacheKey) (tr tr' : List (Event ι Op Op.Reply)) :
    acceptedNonces key (tr ++ tr') = acceptedNonces key tr ++ acceptedNonces key tr' :=
  List.filterMap_append

section chain

variable {ι α : Type} [DecidableEq ι] {w : ℕ} {own : CacheKey → Prop} {prog : ι → Task α}
  {s₀ : Shared ι Chain} {tr : List (Event ι Op Op.Reply)}
  {c : Config ι (Shared ι Chain) Op Op.Reply α} {key : CacheKey}

theorem serve_nonces {ch ch' : Chain} {call : Rpc} {reply : call.Reply}
    (h : honestChain.serve ch call reply = some ch') :
    ch'.nonces key = (acceptedNonce key ⟨.rpc call, reply⟩).getD (ch.nonces key) := by
  cases call with
  | block reference =>
      cases h
      rfl
  | query reference request =>
      have hsame : ch' = ch := by
        cases request with
        | viewAccessKey accountId publicKey =>
            simp only [honestChain] at h
            split at h
            · split at h <;> cases h
              rfl
            · cases h
              rfl
        | _ =>
            cases h
            rfl
      rw [hsame]
      rfl
  | sendTx stx level =>
      simp only [honestChain] at h
      split at h
      · rename_i haccepted
        cases h
        by_cases hkey : stx.transaction.key = key
        · simp [acceptedNonce, haccepted, hkey, Chain.accept]
        · simp [acceptedNonce, haccepted, hkey, Chain.accept, Function.update_of_ne (Ne.symm hkey)]
      · rename_i hrejected
        cases h
        simp [acceptedNonce, hrejected, Chain.reject]
      · cases h
  | _ =>
      cases h
      rfl

theorem perform_chain {t : ι} {e : Op} {ans : Option e.Reply} {r : e.Reply} {s s' : Shared ι Chain}
    (h : perform w (privateChain own) t e ans s = some (r, s')) :
    s'.endpoint.nonces key = (acceptedNonce key ⟨e, r⟩).getD (s.endpoint.nonces key) := by
  cases e with
  | rpc call =>
      obtain ⟨ch, hserve, rfl⟩ := perform_rpc h
      exact serve_nonces hserve
  | lockAcquire m =>
      obtain ⟨l, -, rfl⟩ := perform_lockAcquire h
      rfl
  | nonceFetchAdd k =>
      obtain ⟨-, rfl⟩ := perform_nonceFetchAdd h
      rfl
  | _ =>
      cases Option.some.inj h
      rfl

/-- The nonce of a key that nobody else uses is the one that was accepted last. -/
theorem chainNonce_of_run (hown : own key)
    (h : Run (machine w (privateChain own)) (.start s₀ prog) tr c) :
    c.shared.endpoint.nonces key =
      (acceptedNonces key tr).getLast?.getD (s₀.endpoint.nonces key) := by
  induction h with
  | start => rfl
  | @act tr c t e k ans r s _ _ hp ih =>
      have hstep : s.endpoint.nonces key =
          (acceptedNonce key ⟨e, r⟩).getD (c.shared.endpoint.nonces key) := perform_chain hp
      rw [Config.advance_shared, hstep, ih, acceptedNonces_append]
      cases hv : acceptedNonce key ⟨e, r⟩ with
      | none => simp [acceptedNonces, hv]
      | some v => simp [acceptedNonces, hv]
  | drop _ _ _ ih => exact ih
  | ambient a _ ih =>
      have hne : key ≠ a.1.1 := fun heq => a.2 (heq ▸ hown)
      rw [← ih]
      exact Function.update_of_ne hne _ _

theorem accepted_between (hown : own key) {pre mid : List (Event ι Op Op.Reply)}
    {c₁ : Config ι (Shared ι Chain) Op Op.Reply α}
    (h₁ : Run (machine w (privateChain own)) (.start s₀ prog) pre c₁)
    (h : Run (machine w (privateChain own)) (.start s₀ prog) (pre ++ mid) c)
    (hlt : c₁.shared.endpoint.nonces key < c.shared.endpoint.nonces key) :
    ∃ mid₁ ev mid₂, mid = mid₁ ++ ev :: mid₂ ∧
      acceptedNonce key ev.act = some (c.shared.endpoint.nonces key) := by
  have hnonce := chainNonce_of_run hown h
  rw [acceptedNonces_append] at hnonce
  rcases List.eq_nil_or_concat (acceptedNonces key mid) with hnil | ⟨l, v, hl⟩
  · have hsame : c.shared.endpoint.nonces key = c₁.shared.endpoint.nonces key := by
      rw [chainNonce_of_run hown h₁, hnonce, hnil, List.append_nil]
    exact absurd hlt (hsame ▸ Nat.lt_irrefl _)
  · have hv : c.shared.endpoint.nonces key = v := by
      rw [hnonce, hl, List.concat_eq_append, ← List.append_assoc, List.getLast?_concat]
      rfl
    have hmem : v ∈ acceptedNonces key mid := by
      rw [hl]
      simp
    obtain ⟨ev, hev, hsome⟩ := List.mem_filterMap.mp hmem
    obtain ⟨mid₁, mid₂, rfl⟩ := List.append_of_mem hev
    exact ⟨mid₁, ev, mid₂, rfl, by rw [hv, hsome]⟩

theorem nonce_of_rejected {ch ch' : Chain} {stx : SignedTransaction} {level : TxExecutionStatus}
    {reply : SendReply}
    (h : honestChain.serve ch (.sendTx stx level) reply = some ch')
    (hrejected : SendReply.invalidNonce reply = true) :
    stx.transaction.nonce ≤ ch.nonces stx.transaction.key := by
  simp only [honestChain, hrejected] at h
  split at h
  · rename_i heq
    cases heq
  · rename_i hnot _
    exact Nat.le_of_not_lt (of_decide_eq_false hnot)
  · cases h

/-- When a transaction is rejected, it is not above the nonce of its key. -/
theorem rejected_at {c₀ : Config ι (Shared ι Chain) Op Op.Reply α}
    {pre post : List (Event ι Op Op.Reply)} {t : ι} {stx : SignedTransaction}
    {level : TxExecutionStatus} {reply : SendReply}
    (h : Run (machine w (privateChain own)) c₀
      (pre ++ ⟨t, ⟨.rpc (.sendTx stx level), reply⟩⟩ :: post) c)
    (hrejected : SendReply.invalidNonce reply = true) :
    ∃ c₁, Run (machine w (privateChain own)) c₀ pre c₁ ∧
      stx.transaction.nonce ≤ c₁.shared.endpoint.nonces stx.transaction.key := by
  obtain ⟨c₁, ch, h₁, hserve⟩ := run_served h
  have hserved : honestChain.serve c₁.shared.endpoint (.sendTx stx level) reply = some ch := hserve
  exact ⟨c₁, h₁, nonce_of_rejected hserved hrejected⟩

theorem reported_at {c₀ : Config ι (Shared ι Chain) Op Op.Reply α}
    {pre post : List (Event ι Op Op.Reply)} {t : ι} {reference : BlockReference}
    {reply : Except (JsonRpcError RpcQueryError) RpcQueryResponse} {b : Nonce}
    (h : Run (machine w (privateChain own)) c₀
      (pre ++ ⟨t, ⟨.rpc (.query reference (.viewAccessKey key.1 key.2)), reply⟩⟩ :: post) c)
    (hb : reportedNonce reply = some b) :
    ∃ c₁, Run (machine w (privateChain own)) c₀ pre c₁ ∧ c₁.shared.endpoint.nonces key = b := by
  obtain ⟨c₁, ch, h₁, hserve⟩ := run_served h
  have hserved : honestChain.serve c₁.shared.endpoint
    (.query reference (.viewAccessKey key.1 key.2)) reply = some ch := hserve
  exact ⟨c₁, h₁, reported_of_honest hserved hb⟩

end chain

/-! ### The nonce that a draw is above -/

/-- In the events `q`, which follow a query of task `s` that reported the nonce `b`, and with the draw behind
them, the entry was inserted from that report, and then only drawn from. -/
def StemsFrom {ι : Type} (key : CacheKey) (s : ι) (b : Nonce) (q : List (Event ι Op Op.Reply))
    (draw : Event ι Op Op.Reply) : Prop :=
  ∃ q₁ q₂, q ++ [draw] = q₁ ++ ⟨s, ⟨.nonceInsert key (b + 1), ()⟩⟩ :: q₂ ∧ labels key q₁ = [] ∧
    .closed ∉ labels key q₂ ∧ ∀ v, .opened v ∉ labels key q₂

theorem closed_mem_labels {ι : Type} {key : CacheKey} {seg : List (Event ι Op Op.Reply)} {z : ι}
    (h : ⟨z, ⟨.nonceRemove key, ()⟩⟩ ∈ seg) : Label.closed ∈ labels key seg :=
  List.mem_filterMap.mpr ⟨_, h, by simp [entryLabel]⟩

/-- From the report to the draw the entry was not removed. -/
theorem StemsFrom.kept {ι : Type} {key : CacheKey} {s : ι} {b : Nonce}
    {q : List (Event ι Op Op.Reply)} {draw : Event ι Op Op.Reply} (h : StemsFrom key s b q draw)
    (z : ι) : ⟨z, ⟨.nonceRemove key, ()⟩⟩ ∉ q := by
  obtain ⟨q₁, q₂, hq, hquiet, hclosed, -⟩ := h
  intro hz
  have hmem : Label.closed ∈ labels key (q ++ [draw]) :=
    closed_mem_labels (List.mem_append_left _ hz)
  rw [hq, labels_append, hquiet, labels_insert] at hmem
  simp [hclosed] at hmem

section reported

variable {ι W A α : Type} [DecidableEq ι] {w : ℕ} {ep : Endpoint W A} {counters : CounterId → ℕ}
  {e₀ : W} {prog : ι → Task α} {c : Config ι (Shared ι W) Op Op.Reply α} {key : CacheKey} {v : Nonce}

/-- An inserted nonce is one above the nonce that was reported last, and nothing happened to the entry since
that report. -/
theorem reported_of_insert (hd : ∀ t, Disciplined (prog t)) {pre post : List (Event ι Op Op.Reply)}
    {t : ι}
    (h : Run (machine w ep) (.start ⟨counters, fun _ => none, .free, e₀⟩ prog)
      (pre ++ ⟨t, ⟨.nonceInsert key v, ()⟩⟩ :: post) c)
    (hno : NoOverflow (pre ++ ⟨t, ⟨.nonceInsert key v, ()⟩⟩ :: post)) :
    ∃ p₁ reference reply p₂ b,
      pre = p₁ ++ ⟨t, ⟨.rpc (.query reference (.viewAccessKey key.1 key.2)), reply⟩⟩ :: p₂ ∧
      reportedNonce reply = some b ∧ v = b + 1 ∧ labels key p₂ = [] := by
  obtain ⟨c₁, k, ans, s', hrun₁, hthread, -, -⟩ := h.split
  obtain ⟨b, hphase, hv⟩ := Phase.allowed_nonceInsert (hrun₁.follows hd hthread).1
  have hghost : ghost nonceProtocol .idle pre c₁ t = some (.replied key b) := by
    rw [ghost_of_thread hthread, hphase]
  obtain ⟨p₁, reference, reply, p₂, rfl, hb, hquiet⟩ :=
    (epochInv_reachable hd hrun₁).fresh t key b hghost
  have hlt := hno.report (List.mem_append_left _ (List.mem_append_right _ List.mem_cons_self)) hb
  exact ⟨p₁, reference, reply, p₂, b, rfl, hb, by rw [hv, wrapSucc_of_lt hlt], hquiet key⟩

theorem reported_below (hd : ∀ t, Disciplined (prog t)) {p q : List (Event ι Op Op.Reply)}
    {ev : Event ι Op Op.Reply}
    (h : Run (machine w ep) (.start ⟨counters, fun _ => none, .free, e₀⟩ prog) (p ++ ev :: q) c)
    (hno : NoOverflow (p ++ ev :: q)) (hdraw : drawnNonce ev.act = some (key, v)) :
    ∃ p₁ s reference reply p₂ b,
      p = p₁ ++ ⟨s, ⟨.rpc (.query reference (.viewAccessKey key.1 key.2)), reply⟩⟩ :: p₂ ∧
      reportedNonce reply = some b ∧ b < v ∧ StemsFrom key s b p₂ ev := by
  obtain ⟨t, e, r⟩ := ev
  cases e with
  | nonceInsert k u =>
      cases hdraw
      obtain ⟨p₁, reference, reply, p₂, b, rfl, hb, rfl, hquiet⟩ := reported_of_insert hd h hno
      exact ⟨p₁, t, reference, reply, p₂, b, rfl, hb, Nat.lt_succ_self b, p₂, [], rfl, hquiet,
        List.not_mem_nil, fun _ => List.not_mem_nil⟩
  | nonceFetchAdd k =>
      cases hdraw
      obtain ⟨st, hrun, -⟩ := (epochInv_reachable hd h).counter hno key
      obtain ⟨pre', u, v₀, seg, rfl, hopen⟩ := labels_incremented hrun
      -- the draws of the epoch are not below its first nonce
      have hdrew : entryLabel key ⟨.nonceFetchAdd key, r⟩ = some (.drew (wrapSucc r)) := if_pos rfl
      have hseg : labels key (seg ++ [⟨t, ⟨.nonceFetchAdd key, r⟩⟩]) =
          labels key seg ++ [.drew (wrapSucc r)] := by
        rw [labels_concat, hdrew]
        rfl
      have hcons : pre' ++ ⟨u, ⟨.nonceInsert key v₀, ()⟩⟩ :: seg ++
          ⟨t, ⟨.nonceFetchAdd key, r⟩⟩ :: q = pre' ++ ⟨u, ⟨.nonceInsert key v₀, ()⟩⟩ ::
            ((seg ++ [⟨t, ⟨.nonceFetchAdd key, r⟩⟩]) ++ q) := by
        simp
      rw [hcons] at hrun h hno
      have hclosed : .closed ∉ labels key (seg ++ [⟨t, ⟨.nonceFetchAdd key, r⟩⟩]) := by
        rw [hseg]
        simpa using hopen
      obtain ⟨hopened, hepoch⟩ := labels_epoch hrun hclosed
      have hmem : wrapSucc r ∈ v₀ :: tickets (labels key (seg ++ [⟨t, ⟨.nonceFetchAdd key, r⟩⟩])) := by
        rw [hseg]
        simp [tickets, Label.ticket]
      rw [hepoch, List.mem_range'_1] at hmem
      obtain ⟨p₁, reference, reply, p₂, b, rfl, hb, rfl, hquiet⟩ := reported_of_insert hd h hno
      exact ⟨p₁, u, reference, reply, p₂ ++ ⟨u, ⟨.nonceInsert key (b + 1), ()⟩⟩ :: seg, b, by simp,
        hb, Nat.lt_of_succ_le hmem.1, p₂, _, by simp, hquiet, hclosed, hopened⟩
  | _ => cases hdraw

end reported

/-! ### Overtaking -/

section overtaking

variable {ι α : Type} [DecidableEq ι] {w : ℕ} {own : CacheKey → Prop} {counters : CounterId → ℕ}
  {ch : Chain} {c : Config ι (Shared ι Chain) Op Op.Reply α} {prog : ι → Task α}

/-- The event is a submission of the key, with a nonce not below `v`, that was accepted. -/
def Overtakes (key : CacheKey) (v : Nonce) (ev : Event ι Op Op.Reply) (stx : SignedTransaction) :
    Prop :=
  (∃ level reply, ev.act = ⟨.rpc (.sendTx stx level), reply⟩ ∧
    SendReply.invalidNonce reply = false) ∧ stx.transaction.key = key ∧ v ≤ stx.transaction.nonce

/-- Before a rejected submission of a key stands the query that the entry was read with and, not before that,
the draw; after the query an overtaking submission was accepted. -/
theorem overtaken (hd : ∀ t, Disciplined (prog t))
    (hw : ∀ t, Keeps wireProtocol (fun _ => True) (prog t))
    {tr pre post : List (Event ι Op Op.Reply)} {t : ι} {stx : SignedTransaction}
    {level : TxExecutionStatus} {reply : SendReply} (hown : own stx.transaction.key)
    (h : Run (machine w (privateChain own)) (.start ⟨counters, fun _ => none, .free, ch⟩ prog) tr c)
    (hno : NoOverflow tr) (htr : tr = pre ++ ⟨t, ⟨.rpc (.sendTx stx level), reply⟩⟩ :: post)
    (hrejected : SendReply.invalidNonce reply = true) :
    ∃ p₁ s reference reply₀ b p₂ a m q₁ ev stx' q₂,
      pre = p₁ ++ ⟨s, ⟨.rpc (.query reference (.viewAccessKey stx.transaction.key.1
        stx.transaction.key.2)), reply₀⟩⟩ :: (p₂ ++ ⟨t, a⟩ :: m) ∧
      p₂ ++ ⟨t, a⟩ :: m = q₁ ++ ev :: q₂ ∧
      reportedNonce reply₀ = some b ∧ b < stx.transaction.nonce ∧
      drawnNonce a = some (stx.transaction.key, stx.transaction.nonce) ∧
      (∀ e ∈ acts t m, e.effect.isCause = false) ∧
      StemsFrom stx.transaction.key s b p₂ ⟨t, a⟩ ∧
      Overtakes stx.transaction.key stx.transaction.nonce ev stx' := by
  subst htr
  obtain ⟨p, a, m, rfl, ha, hm⟩ := submission_drawn hd hw h
  have hdraw := h
  rw [List.append_assoc, List.cons_append] at hdraw hno
  obtain ⟨p₁, s, reference, reply₀, p₂, b, rfl, hb, hlt, hstems⟩ := reported_below hd hdraw hno ha
  -- the nonce of the chain at the query and at the rejection
  obtain ⟨c₂, h₂, hbelow⟩ := rejected_at h hrejected
  rw [List.append_assoc, List.cons_append] at hdraw h₂
  obtain ⟨c₁, h₁, hreport⟩ := reported_at hdraw hb
  have hrisen : c₁.shared.endpoint.nonces stx.transaction.key <
      c₂.shared.endpoint.nonces stx.transaction.key := by
    rw [hreport]
    exact hlt.trans_le hbelow
  obtain ⟨mid₁, ev, mid₂, hmid, hev⟩ := accepted_between hown h₁ h₂ hrisen
  obtain ⟨stx', level', reply', hact, hkey', hnonce', haccepted⟩ := acceptedNonce_eq_some hev
  have hovertakes : Overtakes stx.transaction.key stx.transaction.nonce ev stx' :=
    ⟨⟨level', reply', hact, haccepted⟩, hkey', hnonce' ▸ hbelow⟩
  -- the query itself is no submission
  cases mid₁ with
  | nil =>
      obtain ⟨hquery, -⟩ := List.cons.inj hmid
      rw [← hquery] at hact
      cases hact
  | cons x mid₁ =>
      obtain ⟨rfl, hrest⟩ := List.cons.inj hmid
      exact ⟨p₁, s, reference, reply₀, b, p₂, a, m, mid₁, ev, stx', mid₂, by simp, hrest, hb, hlt,
        ha, hm, hstems, hovertakes⟩

/-- Tasks that use one client in any way, each transaction signed by a signer of one account, on a chain where
others do not use the key: a transaction of the key is rejected because of its nonce only if another one of
the client, with a nonce not below, was accepted before, and after the query that the nonce stems from.  One
of the two was drawn after the other, and is greater unless the entry was removed and read anew in
between. -/
theorem rejected_overtaken (cr : Crypto) (jobs : ι → List Job)
    (hsigners : ∀ t, ∀ job ∈ jobs t, ∀ signer, job.signer? = some signer → signer.OneAccount)
    {c : Config ι (Shared ι Chain) Op Op.Reply Unit} {tr pre post : List (Event ι Op Op.Reply)} {t : ι}
    {stx : SignedTransaction} {level : TxExecutionStatus} {reply : SendReply}
    (hown : own stx.transaction.key)
    (h : Run (machine w (privateChain own))
      (.start ⟨counters, fun _ => none, .free, ch⟩ fun t => Job.session cr (jobs t)) tr c)
    (hno : NoOverflow tr) (htr : tr = pre ++ ⟨t, ⟨.rpc (.sendTx stx level), reply⟩⟩ :: post)
    (hrejected : SendReply.invalidNonce reply = true) :
    ∃ p s reference reply₀ b q a m mid u stx' level' reply' mid',
      pre = p ++ ⟨s, ⟨.rpc (.query reference (.viewAccessKey stx.transaction.key.1
        stx.transaction.key.2)), reply₀⟩⟩ :: (q ++ ⟨t, a⟩ :: m) ∧
      reportedNonce reply₀ = some b ∧ b < stx.transaction.nonce ∧
      drawnNonce a = some (stx.transaction.key, stx.transaction.nonce) ∧
      (∀ e ∈ acts t m, e.effect.isCause = false) ∧
      StemsFrom stx.transaction.key s b q ⟨t, a⟩ ∧
      q ++ ⟨t, a⟩ :: m = mid ++ ⟨u, ⟨.rpc (.sendTx stx' level'), reply'⟩⟩ :: mid' ∧
      stx'.transaction.key = stx.transaction.key ∧ SendReply.invalidNonce reply' = false ∧
      stx.transaction.nonce ≤ stx'.transaction.nonce ∧
      (DrawnBefore tr u stx'.transaction t stx.transaction ∨
        u ≠ t ∧ DrawnBefore tr t stx.transaction u stx'.transaction) := by
  have hd : ∀ t, Disciplined (Job.session cr (jobs t)) := fun t =>
    Job.session_disciplined cr (jobs t)
  have hw : ∀ t, Keeps wireProtocol (fun _ => True) (Job.session cr (jobs t)) := fun t =>
    (wire_rule cr).session fun job hjob => ⟨hsigners t job hjob, fun _ _ => trivial⟩
  obtain ⟨p, s, reference, reply₀, b, q, a, m, mid, ev, stx', mid', hpre, hmid, hb, hlt, ha, hm, hstems,
    ⟨level', reply', hact, haccepted⟩, hkey, hle⟩ := overtaken hd hw hown h hno htr hrejected
  obtain ⟨u, act⟩ := ev
  obtain rfl : act = _ := hact
  refine ⟨p, s, reference, reply₀, b, q, a, m, mid, u, stx', level', reply', mid', hpre, hb, hlt, ha, hm,
    hstems, hmid, hkey, haccepted, hle, ?_⟩
  have hsplit : tr = (p ++ ⟨s, ⟨.rpc (.query reference (.viewAccessKey stx.transaction.key.1
      stx.transaction.key.2)), reply₀⟩⟩ :: mid) ++ ⟨u, ⟨.rpc (.sendTx stx' level'), reply'⟩⟩ ::
        (mid' ++ ⟨t, ⟨.rpc (.sendTx stx level), reply⟩⟩ :: post) := by
    rw [htr, hpre, hmid]
    simp
  exact drawnBefore_of_submissions hd hw h hno hsplit hkey

theorem rejected_overtaken_crossing :
    ∃ tr c, Run (machine 64 (privateChain fun _ => True))
        (.start ⟨fun _ => 0, fun _ => none, .free, ⟨fun _ => 0, [], []⟩⟩ fun t =>
          Job.session .transparent (crossingJobs t)) tr c ∧
      ∃ pre stx reply, tr = pre ++ [⟨true, ⟨.rpc (.sendTx stx .executedOptimistic), reply⟩⟩] ∧
        ∃ u stx' level' reply', ⟨u, ⟨.rpc (.sendTx stx' level'), reply'⟩⟩ ∈ pre ∧
          stx'.transaction.key = stx.transaction.key ∧
          stx.transaction.nonce ≤ stx'.transaction.nonce ∧
          SendReply.invalidNonce reply' = false := by
  have hexec : ∃ tr c stx reply, (machine 64 (privateChain fun _ => True)).exec []
      (.start ⟨fun _ => 0, fun _ => none, .free, ⟨fun _ => 0, [], []⟩⟩ fun t =>
        Job.session .transparent (crossingJobs t)) crossing = some (tr, c) ∧ NoOverflow tr ∧
      tr = tr.take 19 ++ [⟨true, ⟨.rpc (.sendTx stx .executedOptimistic), reply⟩⟩] ∧
      SendReply.invalidNonce reply = true :=
    ⟨_, _, _, _, rfl, by unfold NoOverflow; decide, rfl, rfl⟩
  obtain ⟨tr, c, stx, reply, hexec, hno, htr, hrejected⟩ := hexec
  have hrun := Run.start.exec hexec
  have hsigners : ∀ t, ∀ job ∈ crossingJobs t, ∀ signer, job.signer? = some signer →
      signer.OneAccount := by
    intro t job hjob signer hsigner
    cases List.mem_singleton.mp hjob
    cases hsigner
    exact alice.ext_oneAccount .transparent
  obtain ⟨p, s, _, _, _, q, a, m, mid, u, stx', level', reply', mid', hpre, -, -, -, -, -, hmid, hkey,
    haccepted, hle, -⟩ :=
      rejected_overtaken .transparent crossingJobs hsigners trivial hrun hno htr hrejected
  refine ⟨tr, c, hrun, _, stx, reply, htr, u, stx', level', reply', ?_, hkey, hle, haccepted⟩
  rw [hpre, hmid]
  simp

end overtaking

end NearFetch
