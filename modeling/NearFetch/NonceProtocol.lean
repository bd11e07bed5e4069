import NearFetch.SendPaths

/-! # How a task uses the nonce cache

The protocol that every function of the client follows towards the nonce cache and its lock,
as an automaton whose states say where a task is: outside, queued for a guard, or holding
one and knowing something about an entry.  `Phase.allowed` is the discipline: a task asks for
the lock only when it holds no guard, touches the map only under a guard, increments an
entry only after it has found it there, inserts one only under the write guard, after it has
found it missing and has an access-key reply, returns the nonce that it drew, and panics only
outside.

`fetchNonce_follows`, `invalidateCache_follows`, `signTx_follows`, `sendTxOnce_follows` and
`sendTxAsync_follows` say that each function, started outside, follows the protocol and ends
outside; the theorems about interleavings are drawn from these facts alone. -/

namespace NearFetch

open Effects FifoLock

/-- Where a task is with respect to the nonce cache. -/
inductive Phase where
  /-- Outside: it neither holds a guard nor waits for one. -/
  | idle
  /-- In the queue of the lock. -/
  | queued (m : Mode)
  /-- Under a guard, knowing nothing of the map. -/
  | holding (m : Mode)
  /-- Under a guard, with the entry of the key found. -/
  | found (m : Mode) (key : CacheKey)
  /-- Under a guard, with the entry of the key found missing. -/
  | missing (m : Mode) (key : CacheKey)
  /-- Under the write guard, with an access-key reply for a key that is missing. -/
  | replied (key : CacheKey) (b : Nonce)
  /-- Under a guard, having drawn a nonce that needs a block hash. -/
  | drawn (m : Mode) (key : CacheKey) (v : Nonce)
  /-- Under a guard, having all that `fetch_nonce` returns. -/
  | ready (m : Mode) (key : CacheKey) (v : Nonce)
  /-- Under a guard, with a failed query. -/
  | failed (m : Mode) (key : CacheKey)
  /-- Without a guard, about to return from `fetch_nonce`. -/
  | returning (key : CacheKey) (v : Option Nonce)
deriving DecidableEq

namespace Phase

/-- What the phase means for the lock. -/
def standing : Phase → Standing
  | .idle => .out
  | .queued m => .queued m
  | .holding m => .holds m
  | .found m _ => .holds m
  | .missing m _ => .holds m
  | .replied _ _ => .holds .write
  | .drawn m _ _ => .holds m
  | .ready m _ _ => .holds m
  | .failed m _ => .holds m
  | .returning _ _ => .out

/-- What the task knows of the map: whether the entry of a key is there. -/
def knows : Phase → Option (CacheKey × Bool)
  | .found _ key => some (key, true)
  | .missing _ key => some (key, false)
  | .replied key _ => some (key, false)
  | _ => none

/-- The nonce that the task has drawn and not returned. -/
def pending : Phase → Option (CacheKey × Nonce)
  | .drawn _ key v => some (key, v)
  | .ready _ key v => some (key, v)
  | .returning key (some v) => some (key, v)
  | _ => none

/-- The phase after an effect and its reply. -/
def next : Phase → (e : Op) → e.Reply → Phase
  | .idle, .lockRequest m, _ => .queued m
  | .queued m, .lockAcquire _, _ => .holding m
  | .holding m, .nonceGet key, b => if b = true then .found m key else .missing m key
  | .holding _, .guardDrop, _ => .idle
  | .found m _, .nonceFetchAdd key, n => .drawn m key (wrapSucc n)
  | .missing _ _, .guardDrop, _ => .idle
  | .missing m key, .rpc (.query _ _), reply => match reportedNonce reply with
    | some b => .replied key b
    | none => .failed m key
  | .replied key _, .nonceInsert _ v, _ => .ready .write key v
  | .drawn m key v, .rpc (.block _), reply => match reply with
    | .ok _ => .ready m key v
    | .error _ => .failed m key
  | .ready _ key v, .guardDrop, _ => .returning key (some v)
  | .failed _ key, .guardDrop, _ => .returning key none
  | .returning _ _, .nonceReturned _ _, _ => .idle
  | p, _, _ => p

/-- The effects that a task may have in a phase. -/
def allowed : Phase → Op → Prop
  | .idle, .lockRequest _ => True
  | .idle, .counterLoad _ => True
  | .idle, .counterFetchAdd _ => True
  | .idle, .rpc (.sendTx _ _) => True
  | .idle, .rpc (.tx _ _ _) => True
  | .idle, .sleep _ => True
  | .queued m, .lockAcquire n => n = m
  | .holding _, .nonceGet _ => True
  | .holding m, .nonceRemove _ => m = .write
  | .holding _, .guardDrop => True
  | .found _ key, .nonceFetchAdd k => k = key
  | .missing m _, .guardDrop => m = .read
  | .missing m key, .rpc (.query _ (.viewAccessKey accountId publicKey)) =>
      m = .write ∧ (accountId, publicKey) = key
  | .replied key b, .nonceInsert k v => k = key ∧ v = wrapSucc b
  | .drawn _ _ _, .rpc (.block _) => True
  | .ready _ _ _, .guardDrop => True
  | .failed _ _, .guardDrop => True
  | .returning key v, .nonceReturned k result => k = key ∧ returnedNonce result = v
  | _, _ => False

end Phase

/-- The discipline of the nonce cache. -/
abbrev nonceProtocol : Protocol Op Op.Reply where
  State := Phase
  next := Phase.next
  allowed := Phase.allowed
  mayPanic p := p = .idle

/-- The task, started outside, keeps the discipline and ends outside. -/
def Disciplined {α : Type} (p : Task α) : Prop :=
  Follows nonceProtocol (fun _ m => m = Phase.idle) Phase.idle p

section follows

variable {α β : Type}

theorem Disciplined.bind {p : Task α} {f : α → Task β} (hp : Disciplined p)
    (hf : ∀ a, Disciplined (f a)) : Disciplined (p >>= f) := by
  apply Follows.bind hp
  rintro a m rfl
  exact hf a

theorem Synchronous.disciplined {p : Task α} (hp : Synchronous p) : Disciplined p := by
  refine hp.follows ?_ rfl
  intro e he
  cases e <;> first | exact ⟨trivial, fun _ => rfl⟩ | cases he

/-- Under the guard `m` with the entry found, `cached_nonce` leaves the task ready with the
nonce that it returns, or failed with an error. -/
theorem cachedNonce_follows (m : Mode) (key : CacheKey) :
    Follows nonceProtocol
      (fun result p => match result with
        | .ok (v, _, _) => p = Phase.ready m key v
        | .error _ => p = Phase.failed m key)
      (Phase.found m key) (cachedNonce key) := by
  refine ⟨rfl, fun n => ⟨trivial, fun reply => ?_⟩⟩
  cases reply with
  | error err => exact rfl
  | ok block => exact rfl

theorem accessKey_follows (accountId : AccountId) (publicKey : PublicKey) :
    Follows nonceProtocol
      (fun result p => match result with
        | .ok (view, _, _) => p = Phase.replied (accountId, publicKey) view.nonce
        | .error _ => p = Phase.failed .write (accountId, publicKey))
      (Phase.missing .write (accountId, publicKey)) (accessKey accountId publicKey) := by
  refine ⟨⟨rfl, rfl⟩, fun reply => ?_⟩
  cases reply with
  | error err => exact rfl
  | ok resp =>
      obtain ⟨kind, blockHash, blockHeight⟩ := resp
      cases kind <;> exact rfl

theorem dropGuard_follows {m : Mode} {key : CacheKey} {p : Phase}
    {result : Result (Nonce × CryptoHash × BlockHeight)}
    (hp : match result with
      | .ok (v, _, _) => p = .ready m key v
      | .error _ => p = .failed m key) :
    Follows nonceProtocol (fun r p => p = Phase.returning key (returnedNonce r)) p
      (do dropGuard; return result) := by
  cases result with
  | error err =>
      subst hp
      exact ⟨trivial, fun _ => rfl⟩
  | ok x =>
      subst hp
      exact ⟨trivial, fun _ => rfl⟩

theorem fetchNonceBody_follows (accountId : AccountId) (publicKey : PublicKey) :
    Follows nonceProtocol
      (fun r p => p = Phase.returning (accountId, publicKey) (returnedNonce r))
      Phase.idle (fetchNonceBody accountId publicKey) := by
  refine ⟨trivial, fun _ => ⟨rfl, fun _ => ⟨trivial, fun found => ?_⟩⟩⟩
  cases found with
  | true =>
      exact (cachedNonce_follows .read _).bind fun _ _ h => dropGuard_follows h
  | false =>
      -- the read guard is given up before the write guard is asked for
      refine ⟨rfl, fun _ => ⟨trivial, fun _ => ⟨rfl, fun _ => ⟨trivial, fun found => ?_⟩⟩⟩⟩
      cases found with
      | true =>
          exact (cachedNonce_follows .write _).bind fun _ _ h => dropGuard_follows h
      | false =>
          apply (accessKey_follows accountId publicKey).bind
          intro result p hp
          cases result with
          | error err =>
              subst hp
              exact ⟨trivial, fun _ => rfl⟩
          | ok x =>
              subst hp
              exact ⟨⟨rfl, rfl⟩, fun _ => ⟨trivial, fun _ => rfl⟩⟩

theorem fetchNonce_follows (accountId : AccountId) (publicKey : PublicKey) :
    Disciplined (fetchNonce accountId publicKey) := by
  apply (fetchNonceBody_follows accountId publicKey).bind
  rintro result p rfl
  exact ⟨⟨rfl, rfl⟩, fun _ => rfl⟩

theorem invalidateCache_follows (key : CacheKey) : Disciplined (invalidateCache key) :=
  ⟨trivial, fun _ => ⟨rfl, fun _ => ⟨rfl, fun _ => ⟨trivial, fun _ => rfl⟩⟩⟩⟩

variable (cr : Crypto) (signer : SignerExt) (receiverId : AccountId) (actions : List Action)

theorem signTx_follows : Disciplined (signTx cr signer receiverId actions) := by
  unfold signTx
  refine signer.publicKey_sync.disciplined.bind fun pk => ?_
  refine signer.accountId_sync.disciplined.bind fun accountId => ?_
  refine (fetchNonce_follows accountId pk).bind fun result => ?_
  cases result with
  | error err => exact rfl
  | ok x =>
      refine signer.accountId_sync.disciplined.bind fun signerId => ?_
      exact (signer.sign_sync _).disciplined.bind fun signature => rfl

theorem sendWith_follows (waitUntil : TxExecutionStatus)
    {invalidate : CacheKey → SendReply → Task Unit} (hinvalidate : Invalidates invalidate)
    (result : SignedTransaction → SendReply → Result α) :
    Disciplined (sendWith cr signer receiverId actions waitUntil invalidate result) := by
  apply sendWith_frame (K := fun _ p => p = Phase.idle) (S := fun _ _ p => p = Phase.idle)
  · refine signer.accountId_sync.disciplined.bind fun accountId => ?_
    exact signer.publicKey_sync.disciplined.bind fun publicKey => rfl
  · rintro key p rfl
    exact signTx_follows cr signer receiverId actions
  · rintro key err p rfl
    rfl
  · rintro key stx p rfl
    refine ⟨trivial, fun reply => ?_⟩
    exact hinvalidate nonceProtocol .idle key reply (invalidateCache_follows key)

theorem sendTxOnce_follows (waitUntil : TxExecutionStatus) :
    Disciplined (sendTxOnce cr signer receiverId actions waitUntil) := by
  rw [sendTxOnce_eq]
  exact sendWith_follows _ _ _ _ _ checkAndInvalidateCache_invalidates _

theorem sendTxAsync_follows : Disciplined (sendTxAsync cr signer receiverId actions) := by
  rw [sendTxAsync_eq]
  exact sendWith_follows _ _ _ _ _ (invalidateCacheIf_invalidates _) _

end follows

/-! ### Which phases allow an effect -/

namespace Phase

variable {p : Phase}

theorem allowed_lockRequest {m : Mode} (h : p.allowed (.lockRequest m)) : p = .idle := by
  cases p <;> first | rfl | cases h

theorem allowed_lockAcquire {m : Mode} (h : p.allowed (.lockAcquire m)) : p = .queued m := by
  cases p with
  | queued n => rw [show m = n from h]
  | _ => cases h

theorem allowed_guardDrop (h : p.allowed .guardDrop) :
    (∃ m, p.standing = .holds m) ∧ (p.next .guardDrop ()).standing = .out := by
  cases p <;> first | exact ⟨⟨_, rfl⟩, rfl⟩ | cases h

theorem allowed_nonceGet {key : CacheKey} (h : p.allowed (.nonceGet key)) :
    ∃ m, p = .holding m := by
  cases p <;> first | exact ⟨_, rfl⟩ | cases h

theorem allowed_nonceFetchAdd {key : CacheKey} (h : p.allowed (.nonceFetchAdd key)) :
    ∃ m, p = .found m key := by
  cases p with
  | found m k => exact ⟨m, by rw [show key = k from h]⟩
  | _ => cases h

theorem allowed_viewAccessKey {reference : BlockReference} {accountId : AccountId}
    {publicKey : PublicKey} (h : p.allowed (.rpc (.query reference
      (.viewAccessKey accountId publicKey)))) : p = .missing .write (accountId, publicKey) := by
  cases p with
  | missing m key =>
      obtain ⟨rfl, rfl⟩ := h
      rfl
  | _ => cases h

theorem allowed_block {reference : BlockReference} (h : p.allowed (.rpc (.block reference))) :
    ∃ m key v, p = .drawn m key v := by
  cases p <;> first | exact ⟨_, _, _, rfl⟩ | cases h

theorem allowed_nonceInsert {key : CacheKey} {v : Nonce} (h : p.allowed (.nonceInsert key v)) :
    ∃ b, p = .replied key b ∧ v = wrapSucc b := by
  cases p with
  | replied k b =>
      obtain ⟨rfl, hv⟩ := h
      exact ⟨b, rfl, hv⟩
  | _ => cases h

theorem allowed_nonceRemove {key : CacheKey} (h : p.allowed (.nonceRemove key)) :
    p = .holding .write := by
  cases p with
  | holding m => rw [show m = .write from h]
  | _ => cases h

theorem allowed_nonceReturned {key : CacheKey} {result : Result (Nonce × CryptoHash × BlockHeight)}
    (h : p.allowed (.nonceReturned key result)) : p = .returning key (returnedNonce result) := by
  cases p with
  | returning k v =>
      obtain ⟨rfl, rfl⟩ := h
      rfl
  | _ => cases h

/-- Effects other than those of the lock leave the task where it stands. -/
theorem standing_next {e : Op} (h : p.allowed e) (r : e.Reply)
    (hreq : ∀ m, e ≠ .lockRequest m) (hacq : ∀ m, e ≠ .lockAcquire m) (hdrop : e ≠ .guardDrop) :
    (p.next e r).standing = p.standing := by
  cases e with
  | counterLoad c => cases p <;> rfl
  | counterFetchAdd c => cases p <;> rfl
  | lockRequest m => exact absurd rfl (hreq m)
  | lockAcquire m => exact absurd rfl (hacq m)
  | guardDrop => exact absurd rfl hdrop
  | nonceGet key =>
      obtain ⟨m, rfl⟩ := allowed_nonceGet h
      cases r <;> rfl
  | nonceFetchAdd key =>
      obtain ⟨m, rfl⟩ := allowed_nonceFetchAdd h
      rfl
  | nonceInsert key v =>
      obtain ⟨b, rfl, -⟩ := allowed_nonceInsert h
      rfl
  | nonceRemove key =>
      obtain rfl := allowed_nonceRemove h
      rfl
  | rpc call =>
      cases call with
      | block reference =>
          cases p with
          | drawn m key v => cases r <;> rfl
          | _ => rfl
      | query reference request =>
          cases p with
          | missing m key =>
              cases request with
              | viewAccessKey accountId publicKey =>
                  obtain ⟨rfl, rfl⟩ := h
                  simp only [next]
                  cases reportedNonce r <;> rfl
              | _ => cases h
          | _ => rfl
      | gasPrice blockId => cases p <;> rfl
      | chunk reference => cases p <;> rfl
      | sendTx stx waitUntil => cases p <;> rfl
      | tx senderId hash waitUntil => cases p <;> rfl
  | sleep millis => cases p <;> rfl
  | nonceReturned key result =>
      obtain rfl := allowed_nonceReturned h
      rfl

theorem knows_standing {x : CacheKey × Bool} (h : p.knows = some x) :
    ∃ m, p.standing = .holds m := by
  cases p <;> first | exact ⟨_, rfl⟩ | cases h

end Phase

/-! ### What tasks call -/

/-- The calls of the client that use the nonce cache. -/
inductive ClientCall where
  | fetchNonce (accountId : AccountId) (publicKey : PublicKey)
  | invalidateCache (key : CacheKey)
  | sendTxOnce (signer : SignerExt) (receiverId : AccountId) (actions : List Action)
      (waitUntil : TxExecutionStatus)
  | sendTxAsync (signer : SignerExt) (receiverId : AccountId) (actions : List Action)

/-- The task that makes the call and forgets the result. -/
def ClientCall.task (cr : Crypto) : ClientCall → Task Unit
  | .fetchNonce accountId publicKey => do
      let _ ← NearFetch.fetchNonce accountId publicKey
      return ()
  | .invalidateCache key => NearFetch.invalidateCache key
  | .sendTxOnce signer receiverId actions waitUntil => do
      let _ ← NearFetch.sendTxOnce cr signer receiverId actions waitUntil
      return ()
  | .sendTxAsync signer receiverId actions => do
      let _ ← NearFetch.sendTxAsync cr signer receiverId actions
      return ()

theorem ClientCall.disciplined (cr : Crypto) (call : ClientCall) : Disciplined (call.task cr) := by
  cases call with
  | fetchNonce accountId publicKey =>
      exact (fetchNonce_follows accountId publicKey).bind fun _ => rfl
  | invalidateCache key => exact invalidateCache_follows key
  | sendTxOnce signer receiverId actions waitUntil =>
      exact (sendTxOnce_follows cr signer receiverId actions waitUntil).bind fun _ => rfl
  | sendTxAsync signer receiverId actions =>
      exact (sendTxAsync_follows cr signer receiverId actions).bind fun _ => rfl

/-- A task that makes one call after another. -/
def ClientCall.session (cr : Crypto) : List ClientCall → Task Unit
  | [] => return ()
  | call :: calls => do
      call.task cr
      ClientCall.session cr calls

theorem ClientCall.session_disciplined (cr : Crypto) (calls : List ClientCall) :
    Disciplined (ClientCall.session cr calls) := by
  induction calls with
  | nil => exact rfl
  | cons call calls ih => exact (call.disciplined cr).bind fun _ => ih

end NearFetch
