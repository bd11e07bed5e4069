import NearFetch.Interleaving
import NearFetch.FifoLock
import NearFetch.Rpc

/-! # What the client's functions do to the world

The effects of the client: atomic accesses to a rotation counter, the nonce cache and its
lock, RPC calls and sleeping.  `machine` gives them their meaning on the state that the
tasks of one client share.

* **Rotation counters** (`Arc<AtomicUsize>`) live at addresses, so that clones of a signer share
  theirs; an increment wraps at `2 ^ w`, where `w` is the width of `usize`.
* **The nonce cache** (`Arc<RwLock<HashMap<CacheKey, AtomicU64>>>`) is a map of present entries
  beside a lock.  A lock call queues the task (`lockRequest`) and waits (`lockAcquire`); the lock
  is fair, and a dropped task gives up its place and its guard.  `fetch_add` wraps at `2 ^ 64`.
* **RPC calls** are answered by an `Endpoint`, which may refuse a reply that it would not
  give and keeps a state of its own.  A call takes effect at the endpoint in one step; whatever
  time the reply takes to arrive is time in which the task does not move.
* `nonceReturned` touches nothing: it is the return of a call of `fetch_nonce`, which a history
  of the client records. -/

namespace NearFetch

open Effects FifoLock

/-- Cache key for access key nonces. -/
abbrev CacheKey := AccountId × PublicKey

/-- The access key of a transaction: the cache key that its nonce belongs to. -/
def Transaction.key (tx : Transaction) : CacheKey := (tx.signerId, tx.publicKey)

/-- The address of an `AtomicUsize`. -/
abbrev CounterId := ℕ

/-- The effects of the client's functions. -/
inductive Op where
  | counterLoad (counter : CounterId)
  | counterFetchAdd (counter : CounterId)
  | lockRequest (mode : Mode)
  | lockAcquire (mode : Mode)
  | guardDrop
  | nonceGet (key : CacheKey)
  | nonceFetchAdd (key : CacheKey)
  | nonceInsert (key : CacheKey) (value : Nonce)
  | nonceRemove (key : CacheKey)
  | rpc (call : Rpc)
  | sleep (millis : ℕ)
  | nonceReturned (key : CacheKey) (result : Result (Nonce × CryptoHash × BlockHeight))
deriving DecidableEq

/-- The type of the reply to an effect. -/
abbrev Op.Reply : Op → Type
  | .counterLoad _ => ℕ
  | .counterFetchAdd _ => ℕ
  | .lockRequest _ => Unit
  | .lockAcquire _ => Unit
  | .guardDrop => Unit
  | .nonceGet _ => Bool
  | .nonceFetchAdd _ => Nonce
  | .nonceInsert _ _ => Unit
  | .nonceRemove _ => Unit
  | .rpc call => call.Reply
  | .sleep _ => Unit
  | .nonceReturned _ _ => Unit

/-- The client's programs. -/
abbrev Task (α : Type) := Prog Op Op.Reply α

/-- `u64` addition of one, which wraps. -/
def wrapSucc (n : Nonce) : Nonce := (n + 1) % 2 ^ 64

theorem wrapSucc_of_lt {n : Nonce} (h : n + 1 < 2 ^ 64) : wrapSucc n = n + 1 := Nat.mod_eq_of_lt h

/-- The other side of the RPC calls: `serve s call reply` is the endpoint's state after it has
answered a call with `reply`, or `none` if it does not give that reply; `drift` is what
happens at the endpoint without this client. -/
structure Endpoint (W A : Type) where
  serve : W → (call : Rpc) → call.Reply → Option W
  drift : A → W → W

/-- An endpoint that may answer anything. -/
def anyEndpoint : Endpoint Unit Empty := ⟨fun _ _ _ => some (), fun a => a.elim⟩

/-- What the tasks of one client share. -/
structure Shared (ι W : Type) where
  counters : CounterId → ℕ
  nonces : CacheKey → Option Nonce
  lock : RwLock ι
  endpoint : W

section machine

variable {ι W A : Type} [DecidableEq ι] (w : ℕ) (ep : Endpoint W A)

/-- The meaning of an effect of task `t`. -/
def perform (t : ι) : (e : Op) → Option e.Reply → Shared ι W → Option (e.Reply × Shared ι W)
  | .counterLoad c, _, s => some (s.counters c, s)
  | .counterFetchAdd c, _, s => some (s.counters c,
      { s with counters := Function.update s.counters c ((s.counters c + 1) % 2 ^ w) })
  | .lockRequest m, _, s => some ((), { s with lock := s.lock.request t m })
  | .lockAcquire m, _, s => (s.lock.acquire t m).map fun l => ((), { s with lock := l })
  | .guardDrop, _, s => some ((), { s with lock := s.lock.release t })
  | .nonceGet key, _, s => some ((s.nonces key).isSome, s)
  | .nonceFetchAdd key, _, s => (s.nonces key).map fun n =>
      (n, { s with nonces := Function.update s.nonces key (some (wrapSucc n)) })
  | .nonceInsert key v, _, s => some ((),
      { s with nonces := Function.update s.nonces key (some v) })
  | .nonceRemove key, _, s => some ((), { s with nonces := Function.update s.nonces key none })
  | .rpc call, ans, s => ans.bind fun reply =>
      (ep.serve s.endpoint call reply).map fun e => (reply, { s with endpoint := e })
  | .sleep _, _, s => some ((), s)
  | .nonceReturned _ _, _, s => some ((), s)

/-- The tasks of one client and an endpoint, over a `usize` of width `w`. -/
def machine : Machine ι (Shared ι W) A Op Op.Reply where
  perform := perform w ep
  discard t s := { s with lock := s.lock.discard t }
  ambient a s := { s with endpoint := ep.drift a s.endpoint }

/-- The answers to the effects of a task, given the replies to its RPC calls. -/
def replies (reply : (call : Rpc) → call.Reply) : (e : Op) → Option e.Reply
  | .rpc call => some (reply call)
  | .counterLoad _ => none
  | .counterFetchAdd _ => none
  | .lockRequest _ => none
  | .lockAcquire _ => none
  | .guardDrop => none
  | .nonceGet _ => none
  | .nonceFetchAdd _ => none
  | .nonceInsert _ _ => none
  | .nonceRemove _ => none
  | .sleep _ => none
  | .nonceReturned _ _ => none

/-- The answers of an endpoint that chooses its replies from its own state. -/
def answers (reply : W → (call : Rpc) → call.Reply) (s : Shared ι W) : (e : Op) → Option e.Reply :=
  replies (reply s.endpoint)

variable {w ep} {t : ι} {s s' : Shared ι W}

theorem perform_lockAcquire {m : Mode} {ans : Option Unit} {r : Unit}
    (h : perform w ep t (.lockAcquire m) ans s = some (r, s')) :
    ∃ l, s.lock.acquire t m = some l ∧ s' = { s with lock := l } := by
  obtain ⟨l, hl, heq⟩ := Option.map_eq_some_iff.mp h
  cases heq
  exact ⟨l, hl, rfl⟩

theorem perform_nonceFetchAdd {key : CacheKey} {ans : Option Nonce} {n : Nonce}
    (h : perform w ep t (.nonceFetchAdd key) ans s = some (n, s')) :
    s.nonces key = some n ∧
      s' = { s with nonces := Function.update s.nonces key (some (wrapSucc n)) } := by
  obtain ⟨v, hv, heq⟩ := Option.map_eq_some_iff.mp h
  cases heq
  exact ⟨hv, rfl⟩

/-- A call that was performed got a reply that the endpoint gives. -/
theorem perform_rpc {call : Rpc} {ans : Option call.Reply} {reply : call.Reply}
    (h : perform w ep t (.rpc call) ans s = some (reply, s')) :
    ∃ e, ep.serve s.endpoint call reply = some e ∧ s' = { s with endpoint := e } := by
  obtain ⟨r, -, h⟩ := Option.bind_eq_some_iff.mp h
  obtain ⟨e, hserve, heq⟩ := Option.map_eq_some_iff.mp h
  cases heq
  exact ⟨e, hserve, rfl⟩

/-- Where a run holds a call with its reply, the endpoint gave that reply in the state that the run
had reached. -/
theorem run_served {α : Type} {c₀ c : Config ι (Shared ι W) Op Op.Reply α}
    {pre post : List (Event ι Op Op.Reply)} {call : Rpc} {reply : call.Reply}
    (h : Run (machine w ep) c₀ (pre ++ ⟨t, ⟨.rpc call, reply⟩⟩ :: post) c) :
    ∃ c₁ e, Run (machine w ep) c₀ pre c₁ ∧ ep.serve c₁.shared.endpoint call reply = some e := by
  obtain ⟨c₁, k, ans, s, hrun, -, hperform, -⟩ := h.split
  obtain ⟨e, hserve, -⟩ := perform_rpc (w := w) (t := t) hperform
  exact ⟨c₁, e, hrun, hserve⟩

end machine

/-! ### Single effects as programs -/

/-- The task that performs one effect. -/
def effect (e : Op) : Task e.Reply := Prog.perform e

theorem returns_effect {α : Type} {e : Op} {f : e.Reply → Task α} {l : List (Act Op Op.Reply)}
    {a : α} : Returns (effect e >>= f) l a ↔ ∃ r l', l = ⟨e, r⟩ :: l' ∧ Returns (f r) l' a :=
  returns_op

/-- `access_key_nonces.read().await` or `.write().await`. -/
def lockNonces (mode : Mode) : Task Unit := do
  effect (.lockRequest mode)
  effect (.lockAcquire mode)

/-- The end of a guard's scope. -/
def dropGuard : Task Unit := effect .guardDrop

end NearFetch
