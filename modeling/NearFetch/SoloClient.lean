import NearFetch.CacheInvalidation
import NearFetch.HonestChain
import NearFetch.KeyRotation

/-! # A task alone with an honest chain

What the client's functions do when one task is the only user of the client and of its keys, and
the chain answers every call: `Chain.Honest` says what is assumed of the replies.  Each function has
one lemma, which gives its result and the state after it, from a state with the lock free.  A call
of `send_tx_once` draws the next nonce of its key (`nextNonce`); the chain accepts it and the entry
stays, or it rejects it and the entry goes (`sendTxOnce_accepted`, `sendTxOnce_rejected`). -/

namespace NearFetch

open Effects FifoLock

/-- Queries succeed and report the chain's nonces; an accepted transaction is answered with an
outcome without an invalid nonce, a rejected one with `InvalidNonce`. -/
structure Chain.Honest (reply : Chain → (call : Rpc) → call.Reply) : Prop where
  block : ∀ ch reference, ∃ block, reply ch (.block reference) = .ok block
  accessKey : ∀ (ch : Chain) reference accountId publicKey, ∃ permission hash height,
    reply ch (.query reference (.viewAccessKey accountId publicKey)) =
      .ok ⟨.accessKey ⟨ch.nonces (accountId, publicKey), permission⟩, hash, height⟩
  accepted : ∀ (ch : Chain) stx waitUntil, ch.admits stx → ∃ response outcome,
    reply ch (.sendTx stx waitUntil) = .ok response ∧
      response.finalExecutionOutcome = some outcome ∧
      ∀ err ∈ fetchTxErrs response, err.invalidCache = false
  rejected : ∀ (ch : Chain) stx waitUntil, ¬ ch.admits stx → ∃ txNonce akNonce,
    reply ch (.sendTx stx waitUntil) = .error (.serverError (.handlerError (.invalidTransaction
      (.invalidNonce txNonce akNonce))))

theorem Chain.honest_reply {block : BlockView}
    {outcome : SignedTransaction → FinalExecutionOutcomeViewEnum}
    (h : ∀ stx level, ∀ err ∈ fetchTxErrs ⟨some (outcome stx), level⟩, err.invalidCache = false) :
    Chain.Honest (Chain.reply block outcome) where
  block _ _ := ⟨_, rfl⟩
  accessKey _ _ _ _ := ⟨_, _, _, rfl⟩
  accepted _ stx waitUntil hadmits := ⟨_, _, if_pos hadmits, rfl, h stx waitUntil⟩
  rejected _ _ _ hadmits := ⟨_, _, if_neg hadmits⟩

/-- The nonce that the next draw of a key returns: from the entry, or from the chain if there is
none. -/
def nextNonce (nonces : CacheKey → Option Nonce) (ch : Chain) (key : CacheKey) : Nonce :=
  wrapSucc ((nonces key).getD (ch.nonces key))

section solo

variable {ι : Type} [DecidableEq ι] {w : ℕ} {reply : Chain → (call : Rpc) → call.Reply} {t : ι}
  {α : Type}

/-- The task, alone, ends with `a` and takes the shared state from `s` to `s'`. -/
abbrev Solo (w : ℕ) (reply : Chain → (call : Rpc) → call.Reply) (t : ι) (p : Task α)
    (s : Shared ι Chain) (a : α) (s' : Shared ι Chain) : Prop :=
  Ends (machine w honestChain) t (answers reply) p s a s'

variable {counters : CounterId → ℕ} {nonces : CacheKey → Option Nonce} {lock : RwLock ι}
  {ch ch' : Chain}

theorem rpc_solo {call : Rpc} {r : call.Reply} (hr : reply ch call = r)
    (hserve : honestChain.serve ch call r = some ch') :
    Solo w reply t (effect (.rpc call)) ⟨counters, nonces, lock, ch⟩ r
      ⟨counters, nonces, lock, ch'⟩ := by
  apply Ends.perform
  simp [machine, perform, answers, replies, hr, hserve]

theorem nonceGet_solo {s : Shared ι Chain} {key : CacheKey} {found : Bool}
    (h : (s.nonces key).isSome = found) :
    Solo w reply t (effect (.nonceGet key)) s found s := by
  subst h
  exact Ends.perform rfl

/-! ### Nonces -/

section nonces

variable (hreply : Chain.Honest reply)
include hreply

theorem viewBlock_solo (s : Shared ι Chain) :
    ∃ block, Solo w reply t viewBlock s (.ok block) s := by
  obtain ⟨block, hblock⟩ := hreply.block s.endpoint .latest
  exact ⟨block, (rpc_solo hblock rfl).bind (ends_pure _ _)⟩

theorem accessKey_solo (s : Shared ι Chain) (accountId : AccountId) (publicKey : PublicKey) :
    ∃ permission hash height, Solo w reply t (accessKey accountId publicKey) s
      (.ok (⟨s.endpoint.nonces (accountId, publicKey), permission⟩, hash, height)) s := by
  obtain ⟨permission, hash, height, hkey⟩ :=
    hreply.accessKey s.endpoint (.finality .none) accountId publicKey
  refine ⟨permission, hash, height, (rpc_solo hkey ?_).bind (ends_pure _ _)⟩
  simp [honestChain, reportedNonce]

variable (counters) (nonces) (lock) (ch)

theorem cachedNonce_solo {key : CacheKey} {v : Nonce} (hv : nonces key = some v) :
    ∃ hash height, Solo w reply t (cachedNonce key) ⟨counters, nonces, lock, ch⟩
      (.ok (wrapSucc v, hash, height))
      ⟨counters, Function.update nonces key (some (wrapSucc v)), lock, ch⟩ := by
  obtain ⟨block, hblock⟩ := viewBlock_solo (w := w) (t := t) hreply
    ⟨counters, Function.update nonces key (some (wrapSucc v)), lock, ch⟩
  refine ⟨_, _, Ends.op ?_ (hblock.bind (ends_pure _ _))⟩
  change (nonces key).map _ = _
  rw [hv]
  rfl

/-- Whether there is an entry or not, `fetch_nonce` returns the next nonce of the key and leaves
it in the entry. -/
theorem fetchNonce_solo (accountId : AccountId) (publicKey : PublicKey) :
    ∃ hash height, Solo w reply t (fetchNonce accountId publicKey) ⟨counters, nonces, .free, ch⟩
      (.ok (nextNonce nonces ch (accountId, publicKey), hash, height))
      ⟨counters, Function.update nonces (accountId, publicKey)
        (some (nextNonce nonces ch (accountId, publicKey))), .free, ch⟩ := by
  cases hv : nonces (accountId, publicKey) with
  | some v =>
      have hnext : nextNonce nonces ch (accountId, publicKey) = wrapSucc v := by
        rw [nextNonce, hv, Option.getD_some]
      have hfound : (nonces (accountId, publicKey)).isSome = true := by
        rw [hv]
        rfl
      obtain ⟨hash, height, hcached⟩ := cachedNonce_solo (w := w) (t := t) counters nonces
        (RwLock.free.grant t [] .read) ch hreply hv
      rw [hnext]
      refine ⟨hash, height, Ends.bind (Ends.bind (lockNonces_ends .read) ?_)
        (Ends.op rfl (ends_pure _ _))⟩
      apply Ends.bind (nonceGet_solo hfound)
      exact Ends.bind hcached ((dropGuard_ends .read).bind (ends_pure _ _))
  | none =>
      have hnext : nextNonce nonces ch (accountId, publicKey) =
          wrapSucc (ch.nonces (accountId, publicKey)) := by
        rw [nextNonce, hv, Option.getD_none]
      have hfound : (nonces (accountId, publicKey)).isSome = false := by
        rw [hv]
        rfl
      obtain ⟨permission, hash, height, hkey⟩ := accessKey_solo (w := w) (t := t) hreply
        ⟨counters, nonces, RwLock.free.grant t [] .write, ch⟩ accountId publicKey
      rw [hnext]
      refine ⟨hash, height, Ends.bind (Ends.bind (lockNonces_ends .read) ?_)
        (Ends.op rfl (ends_pure _ _))⟩
      refine Ends.bind (nonceGet_solo hfound) (Ends.bind (dropGuard_ends .read) ?_)
      refine Ends.bind (lockNonces_ends .write) (Ends.bind (nonceGet_solo hfound) ?_)
      refine Ends.bind hkey (Ends.bind (Ends.perform rfl) ?_)
      exact Ends.bind (dropGuard_ends .write) (ends_pure _ _)

end nonces

/-! ### The cache -/

section cache

variable (counters) (nonces) (ch) (key : CacheKey)

/-- A rejected transaction takes the entry with it. -/
theorem checkAndInvalidateCache_rejected (txNonce akNonce : Nonce) :
    Solo w reply t (checkAndInvalidateCache key (.error (.serverError (.handlerError
      (.invalidTransaction (.invalidNonce txNonce akNonce)))))) ⟨counters, nonces, .free, ch⟩ ()
      ⟨counters, Function.update nonces key none, .free, ch⟩ :=
  checkAndInvalidateCache_ends key _

theorem checkAndInvalidateCache_accepted {response : RpcTransactionResponse}
    (h : ∀ err ∈ fetchTxErrs response, err.invalidCache = false) :
    Solo w reply t (checkAndInvalidateCache key (.ok response)) ⟨counters, nonces, .free, ch⟩ ()
      ⟨counters, nonces, .free, ch⟩ := by
  have hdecision : SendReply.invalidates (.ok response) = false := by
    rw [SendReply.invalidates_ok, List.any_eq_false]
    intro err herr
    rw [h err herr]
    exact Bool.false_ne_true
  have hends : Solo w reply t (checkAndInvalidateCache key (.ok response))
      ⟨counters, nonces, .free, ch⟩ ()
      ⟨counters, without (SendReply.invalidates (.ok response)) key nonces, .free, ch⟩ :=
    checkAndInvalidateCache_ends key (.ok response)
  rwa [hdecision] at hends

end cache

/-! ### Transactions -/

theorem serve_accepted {stx : SignedTransaction} (h : ch.admits stx)
    (waitUntil : TxExecutionStatus) (response : RpcTransactionResponse) :
    honestChain.serve ch (.sendTx stx waitUntil) (.ok response) = some (ch.accept stx) := by
  simp [honestChain, h, SendReply.invalidNonce]

theorem serve_rejected {stx : SignedTransaction} (h : ¬ ch.admits stx)
    (waitUntil : TxExecutionStatus) (txNonce akNonce : Nonce) :
    honestChain.serve ch (.sendTx stx waitUntil) (.error (.serverError (.handlerError
      (.invalidTransaction (.invalidNonce txNonce akNonce))))) = some (ch.reject stx) := by
  simp [honestChain, h, SendReply.invalidNonce]

section transactions

variable (cr : Crypto) {ks : KeyRotatingSigner} {sg : InMemorySigner}

theorem select_solo (s : Shared ι Chain) {v : ℕ} {sgn : Signer} (h : ks.signerAt v = some sgn) :
    Solo w reply t (ks.select v) s sgn s := by
  unfold KeyRotatingSigner.signerAt at h
  unfold KeyRotatingSigner.select
  rw [h]
  exact ends_pure sgn s

theorem accountId_solo {s : Shared ι Chain}
    (h : ks.signerAt (s.counters ks.counter) = some (.inMemory sg)) :
    Solo w reply t ks.accountId s sg.accountId s :=
  Ends.bind (Ends.op rfl (select_solo s h)) (ends_pure _ _)

theorem publicKey_solo {s : Shared ι Chain}
    (h : ks.signerAt (s.counters ks.counter) = some (.inMemory sg)) :
    Solo w reply t (ks.publicKey cr) s sg.publicKey s :=
  Ends.bind (Ends.op rfl (select_solo s h)) (ends_pure _ _)

/-- The counters after the signer has signed once more. -/
def rotated (w : ℕ) (ks : KeyRotatingSigner) (counters : CounterId → ℕ) : CounterId → ℕ :=
  Function.update counters ks.counter ((counters ks.counter + 1) % 2 ^ w)

theorem sign_solo (h : ks.signerAt (counters ks.counter) = some (.inMemory sg))
    (data : List UInt8) :
    Solo w reply t (ks.sign cr data) ⟨counters, nonces, lock, ch⟩ (sg.sign cr data)
      ⟨rotated w ks counters, nonces, lock, ch⟩ :=
  Ends.bind (Ends.op rfl (select_solo _ h)) (ends_pure _ _)

/-- The access key of a signer. -/
def InMemorySigner.key (sg : InMemorySigner) : CacheKey := (sg.accountId, sg.publicKey)

variable (hreply : Chain.Honest reply) (nonces) (ch)
  (hsigner : ks.signerAt (counters ks.counter) = some (.inMemory sg))
  (receiverId : AccountId) (actions : List Action)
include hreply hsigner

theorem signTx_solo :
    ∃ stx : SignedTransaction, stx.transaction.key = sg.key ∧
      stx.transaction.nonce = nextNonce nonces ch sg.key ∧ stx.transaction.actions = actions ∧
      Solo w reply t (signTx cr (ks.ext cr) receiverId actions) ⟨counters, nonces, .free, ch⟩
        (.ok stx) ⟨rotated w ks counters,
          Function.update nonces sg.key (some (nextNonce nonces ch sg.key)), .free, ch⟩ := by
  obtain ⟨hash, height, hfetch⟩ := fetchNonce_solo (w := w) (t := t) counters nonces ch hreply
    sg.accountId sg.publicKey
  refine ⟨_, ?_, ?_, ?_, Ends.bind (publicKey_solo cr hsigner) (Ends.bind (accountId_solo hsigner)
    (Ends.bind hfetch (Ends.bind (accountId_solo hsigner) (Ends.bind (sign_solo cr hsigner _)
      (ends_pure _ _)))))⟩
  · rfl
  · rfl
  · rfl

variable (waitUntil : TxExecutionStatus)

/-- The chain accepts a nonce above its own, and the entry stays. -/
theorem sendTxOnce_accepted (h : ch.nonces sg.key < nextNonce nonces ch sg.key) :
    ∃ (stx : SignedTransaction) (outcome : FinalExecutionOutcomeView),
      stx.transaction.key = sg.key ∧ stx.transaction.nonce = nextNonce nonces ch sg.key ∧
      stx.transaction.actions = actions ∧
      Solo w reply t (sendTxOnce cr (ks.ext cr) receiverId actions waitUntil)
        ⟨counters, nonces, .free, ch⟩ (.ok outcome) ⟨rotated w ks counters,
          Function.update nonces sg.key (some (nextNonce nonces ch sg.key)), .free,
          ch.accept stx⟩ := by
  obtain ⟨stx, hkey, hnonce, hactions, hsign⟩ := signTx_solo (w := w) (t := t) nonces ch cr hreply
    hsigner receiverId actions
  have hadmits : ch.admits stx := by
    unfold Chain.admits
    rwa [hkey, hnonce]
  obtain ⟨response, outcome, hresponse, houtcome, herrs⟩ := hreply.accepted ch stx waitUntil hadmits
  refine ⟨stx, outcome.intoOutcome, hkey, hnonce, hactions, ?_⟩
  refine Ends.bind (accountId_solo hsigner) (Ends.bind (publicKey_solo cr hsigner) ?_)
  refine Ends.bind hsign (Ends.bind (rpc_solo hresponse (serve_accepted hadmits _ _)) ?_)
  apply Ends.bind (checkAndInvalidateCache_accepted _ _ _ _ herrs)
  simp only [houtcome]
  exact ends_pure _ _

/-- The chain rejects a nonce up to its own, and the entry goes. -/
theorem sendTxOnce_rejected (h : ¬ ch.nonces sg.key < nextNonce nonces ch sg.key) :
    ∃ (stx : SignedTransaction) (err : Error),
      Solo w reply t (sendTxOnce cr (ks.ext cr) receiverId actions waitUntil)
        ⟨counters, nonces, .free, ch⟩ (.error err) ⟨rotated w ks counters,
          Function.update nonces sg.key none, .free, ch.reject stx⟩ := by
  obtain ⟨stx, hkey, hnonce, -, hsign⟩ := signTx_solo (w := w) (t := t) nonces ch cr hreply
    hsigner receiverId actions
  have hadmits : ¬ ch.admits stx := by
    unfold Chain.admits
    rwa [hkey, hnonce]
  obtain ⟨txNonce, akNonce, hresponse⟩ := hreply.rejected ch stx waitUntil hadmits
  have hupdate : Function.update nonces sg.key none =
      Function.update (Function.update nonces sg.key (some (nextNonce nonces ch sg.key))) sg.key
        none := (Function.update_idem _ _ _).symm
  refine ⟨stx, .rpcTransactionError (.serverError (.handlerError (.invalidTransaction
    (.invalidNonce txNonce akNonce)))), ?_⟩
  rw [hupdate]
  refine Ends.bind (accountId_solo hsigner) (Ends.bind (publicKey_solo cr hsigner) ?_)
  refine Ends.bind hsign (Ends.bind (rpc_solo hresponse (serve_rejected hadmits _ _ _)) ?_)
  exact Ends.bind (checkAndInvalidateCache_rejected _ _ _ _ txNonce akNonce) (ends_pure _ _)

end transactions

end solo

end NearFetch
