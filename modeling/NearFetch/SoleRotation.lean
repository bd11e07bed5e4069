import NearFetch.KeyRaces
import NearFetch.SigningTurns

/-! # A rotating signer that one task uses

A call on a key-rotating signer reads the shared counter anew for each thing that it needs, so two tasks that
share the signer can disturb each other.  A task that is the only one to use it is not disturbed, whatever the
others do with the client: the counter stands where the task's own submissions have brought it (`InTurn`),
and all that it reads for one transaction selects one key.

So its transactions take the keys strictly in turn, each signed with the key that it names
(`sole_user_in_turn`). -/

namespace NearFetch

open Effects FifoLock

/-! ### Signers that leave a counter alone -/

/-- The signer does not rotate the counter. -/
structure SignerExt.Leaves (signer : SignerExt) (counter : CounterId) : Prop where
  accountId : Only (fun e => e.rotates counter = false) signer.accountId
  publicKey : Only (fun e => e.rotates counter = false) signer.publicKey
  sign : ∀ data, Only (fun e => e.rotates counter = false) (signer.sign data)

theorem InMemorySigner.ext_leaves (cr : Crypto) (sg : InMemorySigner) (counter : CounterId) :
    (sg.ext cr).Leaves counter := ⟨trivial, trivial, fun _ => trivial⟩

/-- The counter is not rotated. -/
abbrev stillProtocol (counter : CounterId) : Protocol Op Op.Reply where
  State := Unit
  next _ _ _ := ()
  allowed _ e := e.rotates counter = false
  mayPanic _ := True

section still

variable {counter : CounterId} {α : Type}

theorem still_keeps {p : Task α} (hp : Only (fun e => e.rotates counter = false) p) :
    Keeps (stillProtocol counter) (fun _ => True) p := by
  rintro ⟨⟩ -
  have hfol : Follows (stillProtocol counter) (fun _ m => m = ()) () p :=
    hp.follows (fun e he => ⟨he, fun _ => rfl⟩) trivial
  exact hfol.mono fun _ _ _ => trivial

theorem fetchNonce_unrotated (accountId : AccountId) (publicKey : PublicKey) :
    Only (fun e => e.rotates counter = false) (fetchNonce accountId publicKey) := by
  have hbody : Only (fun e => e.rotates counter = false) (fetchNonceBody accountId publicKey) := by
    apply (fetchNonceBody_fetching accountId publicKey).mono
    intro e he
    cases e <;> first | rfl | cases he
  exact hbody.bind fun _ => ⟨rfl, fun _ => trivial⟩

theorem invalidateCache_unrotated (key : CacheKey) :
    Only (fun e => e.rotates counter = false) (invalidateCache key) :=
  ⟨rfl, fun _ => ⟨rfl, fun _ => ⟨rfl, fun _ => ⟨rfl, fun _ => trivial⟩⟩⟩⟩

variable (cr : Crypto) {signer : SignerExt} (hsigner : signer.Leaves counter)
  (receiverId : AccountId) (actions : List Action)
include hsigner

theorem signTx_unrotated :
    Only (fun e => e.rotates counter = false) (signTx cr signer receiverId actions) := by
  refine hsigner.publicKey.bind fun pk => hsigner.accountId.bind fun accountId => ?_
  refine (fetchNonce_unrotated accountId pk).bind fun result => ?_
  cases result with
  | error err => trivial
  | ok x => exact hsigner.accountId.bind fun _ => (hsigner.sign _).bind fun _ => trivial

theorem sendWith_unrotated (waitUntil : TxExecutionStatus)
    {invalidate : CacheKey → SendReply → Task Unit} (hinvalidate : Invalidates invalidate)
    (result : SignedTransaction → SendReply → Result α) :
    Only (fun e => e.rotates counter = false)
      (sendWith cr signer receiverId actions waitUntil invalidate result) := by
  have hkey : Only (fun e => e.rotates counter = false) (readKey signer) :=
    hsigner.accountId.bind fun _ => hsigner.publicKey.bind fun _ => trivial
  refine hkey.bind fun key => (signTx_unrotated cr hsigner receiverId actions).bind fun signed => ?_
  cases signed with
  | error err => trivial
  | ok stx =>
      refine ⟨rfl, fun reply => ?_⟩
      exact (hinvalidate.only (invalidateCache_unrotated key) reply).bind fun _ => trivial

end still

theorem still_rule (cr : Crypto) (counter : CounterId) :
    JobRule cr (stillProtocol counter) (fun _ => True) (fun signer => signer.Leaves counter)
      fun _ => True where
  fetchNonce accountId publicKey := still_keeps (fetchNonce_unrotated accountId publicKey)
  invalidateCache key _ := still_keeps (invalidateCache_unrotated key)
  sendTxOnce signer receiverId actions waitUntil hsigner := by
    rw [sendTxOnce_eq]
    exact still_keeps (sendWith_unrotated cr hsigner _ _ _ checkAndInvalidateCache_invalidates _)
  sendTxAsync signer receiverId actions hsigner := by
    rw [sendTxAsync_eq]
    exact still_keeps (sendWith_unrotated cr hsigner _ _ _ (invalidateCacheIf_invalidates _) _)
  sleep _ _ _ := ⟨rfl, fun _ => trivial⟩
  tx _ _ _ _ _ := ⟨rfl, fun _ => trivial⟩

/-! ### The counter of one task -/

/-- All that the task has read since its last submission is where its submissions have brought the counter,
which has since been rotated for the turn that the task holds. -/
structure InTurn (M start : ℕ) (st : Turn) (counter : ℕ) : Prop where
  loads : ∀ v ∈ st.loads, v = (start + st.used.length) % M
  held : ∀ v, st.held = some v → v = (start + st.used.length) % M
  counter : counter = (start + st.used.length + st.held.toList.length) % M

section runs

variable {cr : Crypto} {ks : KeyRotatingSigner} {ι W A : Type} [DecidableEq ι] {w : ℕ}
  {ep : Endpoint W A} {start : ℕ}

theorem InTurn.next {st : Turn} {t : ι} {e : Op} {ans : Option e.Reply} {r : e.Reply}
    {s s' : Shared ι W} (hturn : InTurn (2 ^ w) start st (s.counters ks.counter))
    (hallowed : st.allowed cr ks e) (h : perform w ep t e ans s = some (r, s')) :
    InTurn (2 ^ w) start (st.next ks e r) (s'.counters ks.counter) := by
  obtain ⟨hloads, hheld, hcounter⟩ := hturn
  have hnext : s'.counters ks.counter = if e.rotates ks.counter = true
      then (s.counters ks.counter + 1) % 2 ^ w else s.counters ks.counter := perform_counters h
  have hread : (counterRead ks.counter ⟨e, r⟩).toList =
      if e.accesses ks.counter = true then [s.counters ks.counter] else [] := perform_counterRead h
  cases e with
  | counterLoad c =>
      rw [if_neg (by simp [Op.rotates])] at hnext
      by_cases hc : c = ks.counter
      · have hnone : st.held = none := hallowed hc
        rw [show st.next ks (.counterLoad c) r = st.load r from if_pos hc]
        have hr : r = s.counters ks.counter := by simpa [counterRead, Op.accesses, hc] using hread
        refine ⟨fun v hv => ?_, hheld, hnext ▸ hcounter⟩
        rcases List.mem_append.mp hv with hv | hv
        · exact hloads v hv
        · rw [List.mem_singleton.mp hv, hr, hcounter, hnone]
          rfl
      · rw [show st.next ks (.counterLoad c) r = st from if_neg hc]
        exact ⟨hloads, hheld, hnext ▸ hcounter⟩
  | counterFetchAdd c =>
      by_cases hc : c = ks.counter
      · have hnone : st.held = none := hallowed hc
        rw [show st.next ks (.counterFetchAdd c) r = st.take r from if_pos hc]
        have hr : r = s.counters ks.counter := by simpa [counterRead, Op.accesses, hc] using hread
        rw [if_pos (by simp [Op.rotates, hc])] at hnext
        refine ⟨hloads, fun v hv => ?_, ?_⟩
        · rw [← Option.some.inj hv, hr, hcounter, hnone]
          rfl
        · rw [hnext, hcounter, hnone, Nat.mod_add_mod]
          rfl
      · rw [show st.next ks (.counterFetchAdd c) r = st from if_neg hc]
        rw [if_neg (by simp [Op.rotates, hc])] at hnext
        exact ⟨hloads, hheld, hnext ▸ hcounter⟩
  | rpc call =>
      rw [if_neg (by simp [Op.rotates])] at hnext
      cases call with
      | sendTx stx level =>
          obtain ⟨before, v₀, v₁, v₂, v, s, -, hv, -⟩ := hallowed
          refine ⟨fun u hu => absurd hu List.not_mem_nil, fun u hu => (Option.some_ne_none u hu.symm).elim, ?_⟩
          rw [hnext, hcounter, Turn.next, hv]
          simp [Nat.add_assoc]
      | _ => exact ⟨hloads, hheld, hnext ▸ hcounter⟩
  | _ => exact ⟨hloads, hheld, hnext ▸ hcounter⟩

variable {α : Type} {s₀ : Shared ι W} (prog : ι → Task α) {Q : α → Turn → Prop} {t : ι}
  {tr : List (Event ι Op Op.Reply)}

/-- The counter of a task that alone rotates it. -/
theorem inTurn_of_run {c : Config ι (Shared ι W) Op Op.Reply α}
    (hf : Follows (turnProtocol cr ks) Q .start (prog t))
    (hothers : ∀ u, u ≠ t → Follows (stillProtocol ks.counter) (fun _ _ => True) () (prog u))
    (hstart : s₀.counters ks.counter < 2 ^ w) (h : Run (machine w ep) (.start s₀ prog) tr c) :
    InTurn (2 ^ w) (s₀.counters ks.counter) (turn cr ks (acts t tr))
      (c.shared.counters ks.counter) := by
  induction h with
  | start =>
      refine ⟨fun v hv => absurd hv List.not_mem_nil, fun v hv => (Option.some_ne_none v hv.symm).elim, ?_⟩
      exact (Nat.mod_eq_of_lt hstart).symm
  | @act tr c u e k ans r s h hu hs ih =>
      rw [Config.advance_shared]
      by_cases hut : u = t
      · subst hut
        have hallowed := (hf.leads (h.leads_of_thread hu)).2.1
        have hturn : turn cr ks (acts u (tr ++ [⟨u, ⟨e, r⟩⟩])) =
            (turn cr ks (acts u tr)).next ks e r := by
          rw [acts_append, acts_cons_self, acts_nil]
          exact Protocol.after_append _ _ _ _
        rw [hturn]
        exact ih.next hallowed hs
      · have hquiet : e.rotates ks.counter = false :=
          ((hothers u hut).leads (h.leads_of_thread hu)).2.1
        have hsame : s.counters ks.counter = c.shared.counters ks.counter := by
          rw [perform_counters hs, hquiet]
          rfl
        rw [hsame, acts_append, acts_cons_ne hut, acts_nil, List.append_nil]
        exact ih
  | drop _ _ _ ih => exact ih
  | ambient a _ ih => exact ih

theorem used_next {st : Turn} {e : Op} (h : st.allowed cr ks e) (r : e.Reply) :
    (st.next ks e r).used.length = st.used.length + e.submission.toList.length := by
  cases e with
  | counterLoad c => by_cases hc : c = ks.counter <;> simp [Turn.next, Turn.load, Op.submission, hc]
  | counterFetchAdd c =>
      by_cases hc : c = ks.counter <;> simp [Turn.next, Turn.take, Op.submission, hc]
  | rpc call =>
      cases call with
      | sendTx stx level =>
          obtain ⟨before, v₀, v₁, v₂, v, s, -, hv, -⟩ := h
          simp [Turn.next, Op.submission, hv]
      | _ => rfl
  | _ => rfl

theorem used_length {st : Turn} {l : List (Act Op Op.Reply)} (h : (turnProtocol cr ks).Obeys st l) :
    ((turnProtocol cr ks).after st l).used.length = st.used.length + (submissions l).length := by
  induction l generalizing st with
  | nil => rfl
  | cons a l ih =>
      obtain ⟨hallowed, hrest⟩ := h
      rw [Protocol.after_cons, ih hrest, used_next hallowed, submissions, submissions,
        List.filterMap_cons_toList, List.length_append, Nat.add_assoc]

end runs

section jobs

variable {cr : Crypto} {ι W A : Type} [DecidableEq ι] {w : ℕ} {ep : Endpoint W A}
  {jobs : ι → List Job} {s₀ : Shared ι W} {tr : List (Event ι Op Op.Reply)}
  {c : Config ι (Shared ι W) Op Op.Reply Unit}

/-- If one task alone uses a key-rotating signer, and signs everything with it, then its transactions take the
keys strictly in turn, each named by its key and signed with it, whatever the other tasks do. -/
theorem sole_user_in_turn {iter : List (AccountId × SecretKey)} {counter : CounterId}
    {ks : KeyRotatingSigner} (hks : KeyRotatingSigner.tryFromIter cr iter counter = .ok ks) {t : ι}
    (hsole : ∀ job ∈ jobs t, ∀ signer, job.signer? = some signer → signer = ks.ext cr)
    (hothers : ∀ u, u ≠ t → ∀ job ∈ jobs u, ∀ signer, job.signer? = some signer →
      signer.Leaves counter)
    (hstart : s₀.counters counter < 2 ^ w)
    (h : Run (machine w ep) (.start s₀ fun t => Job.session cr (jobs t)) tr c)
    {pre post : List (Event ι Op Op.Reply)} {stx : SignedTransaction} {level : TxExecutionStatus}
    {reply : SendReply} (htr : tr = pre ++ ⟨t, ⟨.rpc (.sendTx stx level), reply⟩⟩ :: post) :
    ∃ x, iter[(s₀.counters counter + (submissions (acts t pre)).length) % 2 ^ w % iter.length]? =
        some x ∧
      stx.transaction.key = (x.1, cr.publicKey x.2) ∧
      cr.verify stx.transaction.publicKey (cr.getHash stx.transaction).bytes stx.signature = true := by
  obtain ⟨accountId, hcounter, -, haccounts, hkeys⟩ := tryFromIter_eq_ok hks
  subst hcounter
  have hf : Follows (turnProtocol cr ks) (fun _ st => st.held = none) .start
      (Job.session cr (jobs t)) :=
    (turn_rule cr ks).session (fun job hjob => ⟨hsole job hjob, fun _ _ => trivial⟩) _ rfl
  have hstill : ∀ u, u ≠ t → Follows (stillProtocol ks.counter) (fun _ _ => True) ()
      (Job.session cr (jobs u)) := fun u hu =>
    (still_rule cr ks.counter).session
      (fun job hjob => ⟨hothers u hu job hjob, fun _ _ => trivial⟩) () trivial
  subst htr
  obtain ⟨c₁, k, ans, s, hpre, hthread, -, -⟩ := h.split
  obtain ⟨hobeys, hrest⟩ := hf.leads (hpre.leads_of_thread hthread)
  obtain ⟨before, v₀, v₁, v₂, v, sgn, hloads, hheld, ⟨haccount, hpublic⟩, hsigner, hsign⟩ := hrest.1
  have hturn := inTurn_of_run (fun t => Job.session cr (jobs t)) hf hstill hstart hpre
  have hused : (turn cr ks (acts t pre)).used.length = (submissions (acts t pre)).length := by
    have hlength := used_length hobeys
    rwa [Turn.start, List.length_nil, Nat.zero_add] at hlength
  -- all that the transaction is made of was read at one value of the counter
  have hread : ∀ u, u ∈ [v₀, v₁, v₂] →
      u = (s₀.counters ks.counter + (submissions (acts t pre)).length) % 2 ^ w := by
    intro u hu
    rw [← hused]
    exact hturn.loads u (hloads ▸ List.mem_append_right _ hu)
  have hv : v = (s₀.counters ks.counter + (submissions (acts t pre)).length) % 2 ^ w := by
    rw [← hused]
    exact hturn.held v hheld
  rw [hread v₀ (by simp), ← hv] at hpublic
  rw [hread v₂ (by simp), ← hv] at haccount
  have hplace : ks.signerAt v =
      iter[v % iter.length]?.map fun x => InMemorySigner.fromSecretKey cr accountId x.2 := by
    rw [KeyRotatingSigner.signerAt, hkeys, List.length_map, List.getElem?_map]
  rw [KeyRotatingSigner.accountAt, hsigner, Option.bind_some] at haccount
  rw [KeyRotatingSigner.publicKeyAt, hsigner, Option.map_some] at hpublic
  rw [hplace] at hsigner
  obtain ⟨x, hx, rfl⟩ := Option.map_eq_some_iff.mp hsigner
  have hxaccount : x.1 = stx.transaction.key.1 := by
    rw [haccounts x (List.mem_of_getElem? hx)]
    exact Option.some.inj haccount
  have hxpublic : cr.publicKey x.2 = stx.transaction.key.2 := Option.some.inj hpublic
  rw [← hv]
  refine ⟨x, hx, Prod.ext hxaccount.symm hxpublic.symm, ?_⟩
  rw [hsign]
  exact (cr.verify_sign _ _ _).mpr hxpublic

end jobs

/-! ### Beside another task -/

/-- Two transactions of a rotating signer, and one of another signer with the same access key. -/
def besideJobs (rotating : Bool) : List Job :=
  if rotating then List.replicate 2 (.sendTxAsync (rotatingAlice.ext .transparent) ⟨"bob.near"⟩ [])
  else [.sendTxAsync (alice.ext .transparent) ⟨"bob.near"⟩ []]

/-- The counter wraps between the two transactions, and the second has the first key again. -/
theorem sole_user_in_turn_beside :
    ∃ tr c, Run (machine 64 anyEndpoint)
        (.start ⟨fun _ => 2 ^ 64 - 1, fun _ => none, .free, ()⟩ fun t =>
          Job.session .transparent (besideJobs t)) tr c ∧
      ∃ pre stx reply post, tr = pre ++ ⟨true, ⟨.rpc (.sendTx stx .none), reply⟩⟩ :: post ∧
        (submissions (acts true pre)).length = 1 ∧
        stx.transaction.key = (⟨"alice.near"⟩, ⟨[1]⟩) ∧
        Crypto.transparent.verify stx.transaction.publicKey
          (Crypto.transparent.getHash stx.transaction).bytes stx.signature = true := by
  have hexec : ∃ tr c stx reply, (machine 64 anyEndpoint).exec []
      (.start ⟨fun _ => 2 ^ 64 - 1, fun _ => none, .free, ()⟩ fun t =>
        Job.session .transparent (besideJobs t))
      (List.replicate 4 (.act true (chainReplies 0 true)) ++
        List.replicate 12 (.act false (chainReplies 0 true)) ++
        List.replicate 28 (.act true (chainReplies 0 true))) = some (tr, c) ∧
      tr = tr.take 43 ++ ⟨true, ⟨.rpc (.sendTx stx .none), reply⟩⟩ :: [] ∧
      (submissions (acts true (tr.take 43))).length = 1 :=
    ⟨_, _, _, _, rfl, rfl, rfl⟩
  obtain ⟨tr, c, stx, reply, hexec, htr, hsecond⟩ := hexec
  have hrun := Run.start.exec hexec
  refine ⟨tr, c, hrun, tr.take 43, stx, reply, [], htr, hsecond, ?_⟩
  have hks : KeyRotatingSigner.tryFromIter .transparent twoKeys 0 = .ok rotatingAlice := rfl
  have hturn := sole_user_in_turn hks ?_ ?_ (by decide) hrun htr
  · obtain ⟨x, hx, hkey, hverify⟩ := hturn
    rw [hsecond] at hx
    cases hx
    exact ⟨hkey, hverify⟩
  · intro job hjob signer hsigner
    obtain rfl := List.eq_of_mem_replicate hjob
    cases hsigner
    rfl
  · intro u hu job hjob signer hsigner
    cases u with
    | true => exact absurd rfl hu
    | false =>
        cases List.mem_singleton.mp hjob
        cases hsigner
        exact alice.ext_leaves .transparent 0

end NearFetch
