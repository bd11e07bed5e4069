import NearFetch.RotationWindows
import NearFetch.NamedAccounts

/-! # The account of a key-rotating signer

A key-rotating signer stands for one account with many keys.  `try_from_iter` makes sure of this and
of at least one key; `from_signers` takes any signers.  `steady_iff` says that the calls on a signer
and its clones never fail to select a signer and all give one account, in every interleaving, exactly
when the signer was made by `try_from_iter` or from signers that `try_from_iter` would have let
pass.  Then all that the client does with the signer is in the name of that account, too
(`SendCall.named`). -/

namespace NearFetch

open Effects FifoLock

/-! ### Calls on a signer -/

/-- The calls on a key-rotating signer. -/
inductive SignerCall where
  | sign (data : List UInt8)
  | publicKey
  | accountId
  | computeVrfWithProof (data : List UInt8)
  | fetchAndRotateSigner

section calls

variable {V : Type} (cr : Crypto) (vrf : SecretKey → List UInt8 → Option V) (ks : KeyRotatingSigner)

/-- The task that makes the call, and the account if the call gives one. -/
def SignerCall.task : SignerCall → Task (Option AccountId)
  | .sign data => do
      let _ ← ks.sign cr data
      return none
  | .publicKey => do
      let _ ← ks.publicKey cr
      return none
  | .accountId => do
      let a ← ks.accountId
      return some a
  | .computeVrfWithProof data => do
      let _ ← ks.computeVrfWithProof vrf data
      return none
  | .fetchAndRotateSigner => do
      let _ ← ks.fetchAndRotateSigner
      return none

/-- What selecting a signer of an empty list panics with. -/
def divisorOfZero : String := "attempt to calculate the remainder with a divisor of zero"

/-- A call has ended with the account or with none, or has panicked in `near-crypto`. -/
def Settled (a : AccountId) (p : Task (Option AccountId)) : Prop :=
  (∃ o : Option AccountId, p = pure o ∧ ∀ x ∈ o, x = a) ∨ p = .panic "explicit panic"

variable {ks}

theorem settled_none (a : AccountId) : Settled a (pure none) := .inl ⟨none, rfl, by simp⟩

theorem settled_select {a : AccountId} (hks : ks.Of a) (v : ℕ)
    {f : Signer → Task (Option AccountId)}
    (hf : ∀ sg : InMemorySigner, sg.accountId = a → Settled a (f (.inMemory sg))) :
    Settled a (ks.select v >>= f) := by
  obtain ⟨sg, hsg, ha⟩ := hks v
  rw [KeyRotatingSigner.select_eq hsg]
  exact hf sg ha

theorem SignerCall.task_settles {a : AccountId} (hks : ks.Of a) (call : SignerCall) :
    ∃ e k, call.task cr vrf ks = .op e k ∧ ∀ r, Settled a (k r) := by
  cases call with
  | sign data =>
      refine ⟨_, _, rfl, fun v => ?_⟩
      change Settled a (ks.select v >>= _ >>= _)
      rw [bind_assoc]
      exact settled_select hks v fun sg _ => settled_none a
  | publicKey =>
      refine ⟨_, _, rfl, fun v => ?_⟩
      change Settled a (ks.select v >>= _ >>= _)
      rw [bind_assoc]
      exact settled_select hks v fun sg _ => settled_none a
  | accountId =>
      refine ⟨_, _, rfl, fun v => ?_⟩
      change Settled a (ks.select v >>= _ >>= _)
      rw [bind_assoc]
      exact settled_select hks v fun sg hsg => .inl ⟨some sg.accountId, rfl, by simp [hsg]⟩
  | computeVrfWithProof data =>
      refine ⟨_, _, rfl, fun v => ?_⟩
      change Settled a (ks.select v >>= _ >>= _)
      rw [bind_assoc]
      refine settled_select hks v fun sg _ => ?_
      -- a key of a curve without a VRF panics
      simp only [Signer.computeVrfWithProof]
      cases vrf sg.secretKey data with
      | some output => exact settled_none a
      | none => exact .inr rfl
  | fetchAndRotateSigner =>
      refine ⟨_, _, rfl, fun v => ?_⟩
      exact settled_select hks v fun sg _ => settled_none a

/-- No call fails to select a signer, and all calls that gave an account gave the same one. -/
structure SteadyCalls {ι W : Type} (c : Config ι (Shared ι W) Op Op.Reply (Option AccountId)) :
    Prop where
  selects : ∀ t, c.thread t ≠ some (.panic divisorOfZero)
  oneAccount : ∀ t t' a a', c.thread t = some (.pure (some a)) →
    c.thread t' = some (.pure (some a')) → a = a'

/-- With signers of one account, the calls stay steady in every interleaving. -/
theorem steadyCalls_of_run {ι W A : Type} [DecidableEq ι] {w : ℕ} {ep : Endpoint W A}
    {a : AccountId} (hks : ks.Of a)
    {calls : ι → SignerCall} {s₀ : Shared ι W} {tr : List (Event ι Op Op.Reply)}
    {c : Config ι (Shared ι W) Op Op.Reply (Option AccountId)}
    (h : Run (machine w ep) (.start s₀ fun t => (calls t).task cr vrf ks) tr c) : SteadyCalls c := by
  have hthread : ∀ t p, c.thread t = some p → (∃ e k, p = .op e k) ∨ Settled a p := by
    intro t p hp
    obtain ⟨e, k, htask, hk⟩ := (calls t).task_settles cr vrf hks
    have hleads := h.leads_of_thread hp
    rw [htask, leads_op] at hleads
    rcases hleads with ⟨-, rfl⟩ | ⟨r, l, -, hleads⟩
    · exact .inl ⟨e, k, rfl⟩
    · right
      rcases hk r with ⟨o, ho, hall⟩ | hpanic
      · rw [ho] at hleads
        cases hleads
        exact .inl ⟨o, rfl, hall⟩
      · rw [hpanic] at hleads
        cases hleads
        exact .inr rfl
  have haccount : ∀ t x, c.thread t = some (.pure (some x)) → x = a := by
    intro t x hx
    rcases hthread t _ hx with ⟨e, k, hop⟩ | ⟨o, ho, hall⟩ | hpanic
    · cases hop
    · cases ho
      exact hall x rfl
    · cases hpanic
  constructor
  · intro t hpanic
    rcases hthread t _ hpanic with ⟨e, k, hop⟩ | ⟨o, ho, -⟩ | hmsg
    · cases hop
    · cases ho
    · simp [divisorOfZero] at hmsg
  · intro t t' x x' hx hx'
    rw [haccount t x hx, haccount t' x' hx']

/-! ### Steady signers -/

/-- How a key-rotating signer is made. -/
inductive Construction where
  | tryFromIter (iter : List (AccountId × SecretKey))
  | fromSigners (signers : List InMemorySigner)

/-- The signer, with its counter at the given address. -/
def Construction.build (counter : CounterId) : Construction → Result KeyRotatingSigner
  | .tryFromIter iter => KeyRotatingSigner.tryFromIter cr iter counter
  | .fromSigners signers => .ok (KeyRotatingSigner.fromSigners (signers.map .inMemory) counter)

/-- The signer was made by `try_from_iter`, or from at least one signer, all of one account. -/
def Construction.OneAccount : Construction → Prop
  | .tryFromIter _ => True
  | .fromSigners signers =>
      signers ≠ [] ∧ ∀ sg ∈ signers, ∀ sg' ∈ signers, sg.accountId = sg'.accountId

variable {cr vrf}

theorem Construction.OneAccount.of {k : Construction} {counter : CounterId}
    (h : k.OneAccount) (hks : k.build cr counter = .ok ks) : ∃ a, ks.Of a := by
  -- a list of in-memory signers of one account, whichever constructor it comes from
  obtain ⟨l, a, hl, hne, hall⟩ : ∃ (l : List InMemorySigner) (a : AccountId),
      ks.signers = l.map .inMemory ∧ l ≠ [] ∧ ∀ sg ∈ l, sg.accountId = a := by
    cases k with
    | tryFromIter iter =>
        obtain ⟨a, -, hne, -, hsigners⟩ := tryFromIter_eq_ok hks
        refine ⟨iter.map fun x => ⟨a, cr.publicKey x.2, x.2⟩, a, ?_, by simpa using hne, ?_⟩
        · rw [hsigners, List.map_map]
          rfl
        · intro sg hsg
          obtain ⟨x, -, rfl⟩ := List.mem_map.mp hsg
          rfl
    | fromSigners signers =>
        obtain ⟨hne, hall⟩ := h
        cases hks
        obtain ⟨sg, l, rfl⟩ := List.exists_cons_of_ne_nil hne
        exact ⟨_, sg.accountId, rfl, hne, fun sg' hsg' => hall sg' hsg' sg List.mem_cons_self⟩
  refine ⟨a, fun v => ?_⟩
  have hpos : 0 < ks.signers.length := by
    rw [hl, List.length_map]
    exact List.length_pos_iff.mpr hne
  obtain ⟨s, hs⟩ := ks.signerAt_eq_some hpos v
  have hmem := ks.signerAt_mem hs
  rw [hl] at hmem
  obtain ⟨sg, hsg, rfl⟩ := List.mem_map.mp hmem
  exact ⟨sg, hs, hall sg hsg⟩

/-! ### Runs that show the accounts of all signers -/

section runs

variable {ι W A : Type} [DecidableEq ι] {w : ℕ} {ep : Endpoint W A}
  {c₀ c : Config ι (Shared ι W) Op Op.Reply (Option AccountId)} {tr : List (Event ι Op Op.Reply)}

theorem accountId_step (h : Run (machine w ep) c₀ tr c) {t : ι}
    (ht : c.thread t = some (SignerCall.accountId.task cr vrf ks)) {s : Signer}
    (hs : ks.signerAt (c.shared.counters ks.counter) = some s) :
    ∃ tr', Run (machine w ep) c₀ tr' (c.advance t (some (do
      let a ← s.accountId
      return some a)) c.shared) := by
  have hread : (machine w ep).perform t (.counterLoad ks.counter) none c.shared =
      some (c.shared.counters ks.counter, c.shared) := rfl
  have hstep := h.act ht hread
  change Run _ _ _ (c.advance t (some (ks.select _ >>= _ >>= _)) c.shared) at hstep
  rw [KeyRotatingSigner.select_eq hs] at hstep
  exact ⟨_, hstep⟩

theorem accountId_fails (h : Run (machine w ep) c₀ tr c) {t : ι}
    (ht : c.thread t = some (SignerCall.accountId.task cr vrf ks)) (hnil : ks.signers = []) :
    ∃ tr', Run (machine w ep) c₀ tr' (c.advance t (some (.panic divisorOfZero)) c.shared) := by
  have hselect : ks.select (c.shared.counters ks.counter) = .panic divisorOfZero := by
    unfold KeyRotatingSigner.select
    rw [hnil]
    rfl
  have hread : (machine w ep).perform t (.counterLoad ks.counter) none c.shared =
      some (c.shared.counters ks.counter, c.shared) := rfl
  have hstep := h.act ht hread
  change Run _ _ _ (c.advance t (some (ks.select _ >>= _ >>= _)) c.shared) at hstep
  rw [hselect] at hstep
  exact ⟨_, hstep⟩

end runs

/-- Two kinds of tasks: those on the left ask for the account, those on the right rotate. -/
def askOrRotate : ℕ ⊕ ℕ → SignerCall
  | .inl _ => .accountId
  | .inr _ => .fetchAndRotateSigner

/-- After `m` rotations the counter is at `m`, and the other tasks are where they were. -/
theorem rotated_run {W A : Type} {w : ℕ} {ep : Endpoint W A}
    {c₀ c : Config (ℕ ⊕ ℕ) (Shared (ℕ ⊕ ℕ) W) Op Op.Reply (Option AccountId)}
    {tr : List (Event (ℕ ⊕ ℕ) Op Op.Reply)} (h : Run (machine w ep) c₀ tr c)
    (hzero : c.shared.counters ks.counter = 0)
    (hrotate : ∀ i, c.thread (.inr i) = some ((askOrRotate (.inr i)).task cr vrf ks)) (m : ℕ) :
    ∃ tr' c', Run (machine w ep) c₀ tr' c' ∧ c'.shared.counters ks.counter = m % 2 ^ w ∧
      (∀ i, c'.thread (.inl i) = c.thread (.inl i)) ∧
      ∀ i, m ≤ i → c'.thread (.inr i) = some ((askOrRotate (.inr i)).task cr vrf ks) := by
  induction m with
  | zero => exact ⟨tr, c, h, by rw [hzero, Nat.zero_mod], fun _ => rfl, fun i _ => hrotate i⟩
  | succ m ih =>
      obtain ⟨tr', c', hrun, hcounter, hask, hrest⟩ := ih
      let v := c'.shared.counters ks.counter
      let s' : Shared (ℕ ⊕ ℕ) W :=
        { c'.shared with counters := Function.update c'.shared.counters ks.counter ((v + 1) % 2 ^ w) }
      have hrotation : (machine w ep).perform (.inr m) (.counterFetchAdd ks.counter) none c'.shared =
        some (v, s') := rfl
      have hstep := hrun.act (hrest m (Nat.le_refl m)) hrotation
      refine ⟨_, _, hstep, ?_, ?_, ?_⟩
      · change Function.update _ _ _ _ = _
        rw [Function.update_self, show v = m % 2 ^ w from hcounter, Nat.mod_add_mod]
      · intro i
        rw [Config.advance_thread, Function.update_of_ne (by simp), hask]
      · intro i hi
        have hne : (.inr i : ℕ ⊕ ℕ) ≠ .inr m := by
          intro heq
          cases heq
          omega
        rw [Config.advance_thread, Function.update_of_ne hne]
        exact hrest i (by omega)

/-! ### Steady signers -/

variable (cr vrf ks)

/-- In every run, with any endpoint, the calls on a new signer and its clones stay steady, and what
is done with it is done in the name of one account. -/
structure Steady (w : ℕ) : Prop where
  calls : ∀ (ι W A : Type) [DecidableEq ι] (ep : Endpoint W A) (calls : ι → SignerCall)
    (s₀ : Shared ι W) tr c, s₀.counters ks.counter = 0 →
    Run (machine w ep) (.start s₀ fun t => (calls t).task cr vrf ks) tr c → SteadyCalls c
  transactions : ∀ (ι W A : Type) [DecidableEq ι] (ep : Endpoint W A) (sends : ι → SendCall)
    (s₀ : Shared ι W) tr c, s₀.counters ks.counter = 0 →
    Run (machine w ep) (.start s₀ fun t => (sends t).task cr ks) tr c →
      ∃ a, ∀ ev ∈ tr, ev.act.effect.InName a

variable {cr vrf ks}

theorem steady_of (w : ℕ) {a : AccountId} (hks : ks.Of a) : Steady cr vrf ks w := by
  constructor
  · intro ι W A _ ep calls s₀ tr c _ h
    exact steadyCalls_of_run cr vrf hks h
  · intro ι W A _ ep sends s₀ tr c _ h
    refine ⟨a, fun ev hev => ?_⟩
    obtain ⟨q, hleads, -⟩ := h.leads ev.thread
    exact (((sends ev.thread).named cr hks).leads hleads).1 ev.act (mem_acts.mpr hev)

/-- A new signer with tasks of both kinds. -/
def newSigner (cr : Crypto) (vrf : SecretKey → List UInt8 → Option V) (ks : KeyRotatingSigner) :
    Config (ℕ ⊕ ℕ) (Shared (ℕ ⊕ ℕ) Unit) Op Op.Reply (Option AccountId) :=
  .start ⟨fun _ => 0, fun _ => none, .free, ()⟩ fun t => (askOrRotate t).task cr vrf ks

section steady

variable {w : ℕ} {c : Config (ℕ ⊕ ℕ) (Shared (ℕ ⊕ ℕ) Unit) Op Op.Reply (Option AccountId)}
  {tr : List (Event (ℕ ⊕ ℕ) Op Op.Reply)}

theorem Steady.newSigner (h : Steady cr vrf ks w)
    (hrun : Run (machine w anyEndpoint) (newSigner cr vrf ks) tr c) : SteadyCalls c :=
  h.calls _ _ _ anyEndpoint askOrRotate _ tr c rfl hrun

theorem Steady.ne_nil (h : Steady cr vrf ks w) : ks.signers ≠ [] := by
  intro hnil
  have hstart : Run (machine w anyEndpoint) (NearFetch.newSigner cr vrf ks) [] _ := .start
  obtain ⟨tr, hrun⟩ := accountId_fails hstart (t := .inl 0) rfl hnil
  exact (h.newSigner hrun).selects (.inl 0) (by simp)

/-- The signers that the counter comes to have the account of the first one: that one is asked
before the rotations and the other one after them. -/
theorem Steady.same (h : Steady cr vrf ks w) {m : ℕ} {sg₀ sg : InMemorySigner}
    (hsg₀ : ks.signerAt 0 = some (.inMemory sg₀))
    (hsg : ks.signerAt (m % 2 ^ w) = some (.inMemory sg)) : sg₀.accountId = sg.accountId := by
  have hstart : Run (machine w anyEndpoint) (NearFetch.newSigner cr vrf ks) [] _ := .start
  obtain ⟨tr₁, h₁⟩ := accountId_step hstart (t := .inl 0) rfl hsg₀
  obtain ⟨tr₂, c₂, h₂, hcounter, hask, -⟩ := rotated_run h₁ rfl (fun j => rfl) m
  rw [← hcounter] at hsg
  obtain ⟨tr₃, h₃⟩ := accountId_step h₂ (t := .inl 1) (by rw [hask]; rfl) hsg
  refine (h.newSigner h₃).oneAccount (.inl 0) (.inl 1) _ _ ?_ ?_
  · rw [Config.advance_thread, Function.update_of_ne (by simp), hask]
    rfl
  · rw [Config.advance_thread, Function.update_self]
    rfl

theorem Steady.oneAccount {signers : List InMemorySigner} {counter : CounterId}
    (hfit : signers.length ≤ 2 ^ w)
    (h : Steady cr vrf (.fromSigners (signers.map .inMemory) counter) w) :
    (Construction.fromSigners signers).OneAccount := by
  have hget : ∀ (i : ℕ) (sg : InMemorySigner), signers[i]? = some sg →
      (KeyRotatingSigner.fromSigners (signers.map .inMemory) counter).signerAt (i % 2 ^ w) =
        some (.inMemory sg) := by
    intro i sg hi
    obtain ⟨hlt, -⟩ := List.getElem?_eq_some_iff.mp hi
    have hlast : i < 2 ^ w := hlt.trans_le hfit
    simp [KeyRotatingSigner.signerAt, KeyRotatingSigner.fromSigners, Nat.mod_eq_of_lt hlast,
      Nat.mod_eq_of_lt hlt, hi]
  have hne : signers ≠ [] := by
    rintro rfl
    exact h.ne_nil rfl
  obtain ⟨sg₀, l, hl⟩ := List.exists_cons_of_ne_nil hne
  have hhead : signers[0]? = some sg₀ := by rw [hl]; rfl
  have hfirst : ∀ sg ∈ signers, sg₀.accountId = sg.accountId := by
    intro sg hsg
    obtain ⟨i, hi⟩ := List.mem_iff_getElem?.mp hsg
    have hzero := hget 0 sg₀ hhead
    rw [Nat.zero_mod] at hzero
    exact h.same hzero (hget i sg hi)
  exact ⟨hne, fun sg hsg sg' hsg' => (hfirst sg hsg).symm.trans (hfirst sg' hsg')⟩

end steady

/-- A new signer that a constructor returns is steady exactly when it was made by `try_from_iter`, or
by `from_signers` from at least one signer, all of one account. -/
theorem steady_iff (cr : Crypto) (vrf : SecretKey → List UInt8 → Option V) (w : ℕ)
    (k : Construction) {counter : CounterId} {ks : KeyRotatingSigner}
    (hks : k.build cr counter = .ok ks) (hfit : ks.signers.length ≤ 2 ^ w) :
    Steady cr vrf ks w ↔ k.OneAccount := by
  constructor
  · intro h
    cases k with
    | tryFromIter iter => trivial
    | fromSigners signers =>
        cases hks
        rw [KeyRotatingSigner.fromSigners, List.length_map] at hfit
        exact Steady.oneAccount hfit h
  · intro h
    obtain ⟨a, ha⟩ := h.of hks
    exact steady_of w ha

theorem steady_iff_rotatingAlice :
    Steady .transparent (fun sk data => some (sk.bytes ++ data)) rotatingAlice 64 := by
  have hks : (Construction.tryFromIter twoKeys).build .transparent 0 = .ok rotatingAlice := rfl
  exact (steady_iff .transparent _ 64 (.tryFromIter twoKeys) hks (by decide)).mpr trivial

end calls

/-- Keys of a curve without a VRF. -/
def noVrf : SecretKey → List UInt8 → Option Unit := fun _ _ => none

/-- Signers of two accounts. -/
def aliceAndBob : List InMemorySigner :=
  [⟨⟨"alice.near"⟩, ⟨[1]⟩, ⟨[1]⟩⟩, ⟨⟨"bob.near"⟩, ⟨[2]⟩, ⟨[2]⟩⟩]

/-- The first call on a signer made from no signers divides by zero, and a signer made from
signers of two accounts gives another account after a rotation. -/
theorem fromSigners_unsteady :
    (∃ tr c, Run (machine 64 anyEndpoint)
        (.start ⟨fun _ => 0, fun _ => none, .free, ()⟩ fun t =>
          (askOrRotate t).task .transparent noVrf (.fromSigners [] 0)) tr c ∧
      c.thread (.inl 0) = some (.panic divisorOfZero)) ∧
    ∃ tr c, Run (machine 64 anyEndpoint)
        (.start ⟨fun _ => 0, fun _ => none, .free, ()⟩ fun t =>
          (askOrRotate t).task .transparent noVrf
            (.fromSigners (aliceAndBob.map .inMemory) 0)) tr c ∧
      c.thread (.inl 0) = some (.pure (some ⟨"alice.near"⟩)) ∧
      c.thread (.inl 1) = some (.pure (some ⟨"bob.near"⟩)) := by
  constructor
  · have hexec : ∃ tr c, (machine 64 anyEndpoint).exec []
        (.start ⟨fun _ => 0, fun _ => none, .free, ()⟩ fun t =>
          (askOrRotate t).task .transparent noVrf (.fromSigners [] 0))
        [.act (.inl 0) fun _ => none] = some (tr, c) ∧
        c.thread (.inl 0) = some (.panic divisorOfZero) :=
      ⟨_, _, rfl, rfl⟩
    obtain ⟨tr, c, hexec, hthread⟩ := hexec
    exact ⟨tr, c, Run.start.exec hexec, hthread⟩
  · have hexec : ∃ tr c, (machine 64 anyEndpoint).exec []
        (.start ⟨fun _ => 0, fun _ => none, .free, ()⟩ fun t =>
          (askOrRotate t).task .transparent noVrf (.fromSigners (aliceAndBob.map .inMemory) 0))
        ([.inl 0, .inr 0, .inl 1].map fun t => .act t fun _ => none) = some (tr, c) ∧
        c.thread (.inl 0) = some (.pure (some ⟨"alice.near"⟩)) ∧
        c.thread (.inl 1) = some (.pure (some ⟨"bob.near"⟩)) :=
      ⟨_, _, rfl, rfl, rfl⟩
    obtain ⟨tr, c, hexec, halice, hbob⟩ := hexec
    exact ⟨tr, c, Run.start.exec hexec, halice, hbob⟩

end NearFetch
