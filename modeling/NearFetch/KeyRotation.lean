import NearFetch.NonceTrace
import NearFetch.RotationCounter
import NearFetch.CacheLookup

/-! # Which key a call uses

A call on a key-rotating signer reads the shared counter anew for each thing that it needs: for the
cache key, for the public key and the account of the transaction, and for the signature.  Other
tasks rotate the counter between these reads.  `rotationProtocol` follows one call and records
what it read, drew and sent; it allows a cache entry to be removed only under the key that was
read first, beside the transaction and the draw that were made with the later reads.
`signTx_rotation` and `sendTxOnce_rotation` say that the functions keep to it.

So what a call does is decided by the turns at which it reads the counter.  Calls that one task
makes one after another are tasks of their own here. -/

namespace NearFetch

open Effects FifoLock

namespace KeyRotatingSigner

variable (cr : Crypto) (ks : KeyRotatingSigner)

/-- The signer that is selected when the counter is `v`. -/
def signerAt (v : ℕ) : Option Signer := ks.signers[v % ks.signers.length]?

theorem signerAt_mem {v : ℕ} {s : Signer} (h : ks.signerAt v = some s) : s ∈ ks.signers :=
  List.mem_of_getElem? h

theorem signerAt_eq_some (hne : 0 < ks.signers.length) (v : ℕ) : ∃ s, ks.signerAt v = some s :=
  ⟨_, List.getElem?_eq_getElem (Nat.mod_lt v hne)⟩

/-- The account that is selected when the counter is `v`. -/
def accountAt (v : ℕ) : Option AccountId := (ks.signerAt v).bind Signer.account?

/-- The public key that is selected when the counter is `v`. -/
def publicKeyAt (v : ℕ) : Option PublicKey := (ks.signerAt v).map (Signer.publicKey cr)

/-- The account at counter value `a` with the public key at counter value `p`. -/
def KeyAt (a p : ℕ) (key : CacheKey) : Prop :=
  ks.accountAt a = some key.1 ∧ ks.publicKeyAt cr p = some key.2

end KeyRotatingSigner

/-- What a call has read from the counter, the entries that it drew from and what it sent. -/
structure CallRecord where
  reads : List ℕ
  drawn : List CacheKey
  sent : List Transaction

namespace CallRecord

/-- The record of a call that has not begun. -/
def empty : CallRecord := ⟨[], [], []⟩

variable (cr : Crypto) (ks : KeyRotatingSigner)

/-- The record after an effect. -/
def next : CallRecord → (e : Op) → e.Reply → CallRecord
  | st, .counterLoad c, v => if c = ks.counter then { st with reads := st.reads ++ [v] } else st
  | st, .counterFetchAdd c, v =>
      if c = ks.counter then { st with reads := st.reads ++ [v] } else st
  | st, .nonceInsert key _, _ => { st with drawn := st.drawn ++ [key] }
  | st, .nonceFetchAdd key, _ => { st with drawn := st.drawn ++ [key] }
  | st, .rpc (.sendTx stx _), _ => { st with sent := st.sent ++ [stx.transaction] }
  | st, _, _ => st

/-- An entry is removed after one draw and one transaction, under the key of the first reads. -/
def allowed (st : CallRecord) : Op → Prop
  | .nonceRemove key => ∃ v₀ v₁ v₂ v₃ v₄ v₅ tx drawn,
      st = ⟨[v₀, v₁, v₂, v₃, v₄, v₅], [drawn], [tx]⟩ ∧ ks.KeyAt cr v₀ v₁ key ∧
      ks.KeyAt cr v₄ v₂ tx.key ∧ ks.KeyAt cr v₃ v₂ drawn
  | _ => True

end CallRecord

/-- What one call on a key-rotating signer does. -/
abbrev rotationProtocol (cr : Crypto) (ks : KeyRotatingSigner) : Protocol Op Op.Reply where
  State := CallRecord
  next := CallRecord.next ks
  allowed := CallRecord.allowed cr ks
  mayPanic _ := True

section follows

variable (cr : Crypto) (ks : KeyRotatingSigner) (st : CallRecord)

theorem select_rotation (v : ℕ) :
    Follows (rotationProtocol cr ks) (fun s st' => ks.signerAt v = some s ∧ st' = st) st
      (ks.select v) := by
  unfold KeyRotatingSigner.select
  cases h : ks.signers[v % ks.signers.length]? with
  | none => trivial
  | some s => exact ⟨h, rfl⟩

theorem currentSigner_rotation :
    Follows (rotationProtocol cr ks)
      (fun s st' => ∃ v, ks.signerAt v = some s ∧ st' = { st with reads := st.reads ++ [v] })
      st ks.currentSigner := by
  refine ⟨trivial, fun v => ?_⟩
  have hnext : (rotationProtocol cr ks).next st (.counterLoad ks.counter) v =
      { st with reads := st.reads ++ [v] } := if_pos rfl
  rw [hnext]
  apply (select_rotation cr ks _ v).mono
  rintro s st' ⟨hs, rfl⟩
  exact ⟨v, hs, rfl⟩

theorem accountId_rotation :
    Follows (rotationProtocol cr ks)
      (fun a st' => ∃ v, ks.accountAt v = some a ∧ st' = { st with reads := st.reads ++ [v] })
      st ks.accountId := by
  apply (currentSigner_rotation cr ks st).bind
  rintro s st' ⟨v, hs, rfl⟩
  cases s with
  | empty => trivial
  | inMemory s => exact ⟨v, by simp [KeyRotatingSigner.accountAt, hs, Signer.account?], rfl⟩

theorem publicKey_rotation :
    Follows (rotationProtocol cr ks)
      (fun pk st' => ∃ v, ks.publicKeyAt cr v = some pk ∧
        st' = { st with reads := st.reads ++ [v] })
      st (ks.publicKey cr) := by
  apply (currentSigner_rotation cr ks st).bind
  rintro s st' ⟨v, hs, rfl⟩
  exact ⟨v, by simp [KeyRotatingSigner.publicKeyAt, hs], rfl⟩

theorem sign_rotation (data : List UInt8) :
    Follows (rotationProtocol cr ks)
      (fun signature st' => ∃ v s, ks.signerAt v = some s ∧ signature = s.sign cr data ∧
        st' = { st with reads := st.reads ++ [v] })
      st (ks.sign cr data) := by
  refine ⟨trivial, fun v => ?_⟩
  have hnext : (rotationProtocol cr ks).next st (.counterFetchAdd ks.counter) v =
      { st with reads := st.reads ++ [v] } := if_pos rfl
  rw [hnext]
  apply (select_rotation cr ks _ v).bind
  rintro s st' ⟨hs, rfl⟩
  exact ⟨v, s, hs, rfl, rfl⟩

/-- A call of `fetch_nonce` that succeeds draws once, from the entry of its key. -/
def DrewOnce (key : CacheKey) (result : Result (Nonce × CryptoHash × BlockHeight))
    (st st' : CallRecord) : Prop :=
  match result with
  | .ok _ => st' = { st with drawn := st.drawn ++ [key] }
  | .error _ => True

theorem cachedNonce_rotation (key : CacheKey) :
    Follows (rotationProtocol cr ks) (fun result => DrewOnce key result st) st
      (cachedNonce key) := by
  refine ⟨trivial, fun n => ⟨trivial, fun reply => ?_⟩⟩
  cases reply with
  | error err => trivial
  | ok block => exact rfl

theorem rotation_unmoved : Unmoved (rotationProtocol cr ks) where
  allowed st e he := by
    cases e <;> trivial
  next st e r he := by
    cases e <;> first | rfl | cases he

theorem accessKey_rotation (accountId : AccountId) (publicKey : PublicKey) :
    Follows (rotationProtocol cr ks) (fun _ st' => st' = st) st
      (accessKey accountId publicKey) := by
  refine ⟨trivial, fun reply => ?_⟩
  cases reply with
  | error err => exact rfl
  | ok resp =>
      obtain ⟨kind, blockHash, blockHeight⟩ := resp
      cases kind <;> exact rfl

theorem fetchNonce_rotation (accountId : AccountId) (publicKey : PublicKey) :
    Follows (rotationProtocol cr ks) (fun result => DrewOnce (accountId, publicKey) result st) st
      (fetchNonce accountId publicKey) := by
  apply fetchNonce_frame (rotation_unmoved cr ks)
  · exact cachedNonce_rotation cr ks st _
  · apply (accessKey_rotation cr ks st accountId publicKey).mono
    rintro result _ rfl
    cases result with
    | error err => trivial
    | ok x => exact ⟨trivial, rfl⟩

variable (receiverId : AccountId) (actions : List Action)

/-- A transaction that was signed, and the four reads of the counter that went into it. -/
def SignedWith (cr : Crypto) (ks : KeyRotatingSigner) (stx : SignedTransaction)
    (st st' : CallRecord) : Prop :=
  ∃ v₀ v₁ v₂ v₃ drawn s,
    st' = ⟨st.reads ++ [v₀, v₁, v₂, v₃], st.drawn ++ [drawn], st.sent⟩ ∧
    ks.KeyAt cr v₁ v₀ drawn ∧ ks.KeyAt cr v₂ v₀ stx.transaction.key ∧
    ks.signerAt v₃ = some s ∧ stx.signature = s.sign cr (cr.getHash stx.transaction).bytes

theorem signTx_rotation :
    Follows (rotationProtocol cr ks)
      (fun result st' => ∀ stx, result = .ok stx → SignedWith cr ks stx st st') st
      (signTx cr (ks.ext cr) receiverId actions) := by
  unfold signTx
  apply (publicKey_rotation cr ks st).bind
  rintro pk st₁ ⟨v₀, hv₀, rfl⟩
  apply (accountId_rotation cr ks _).bind
  rintro accountId st₂ ⟨v₁, hv₁, rfl⟩
  apply (fetchNonce_rotation cr ks _ accountId pk).bind
  intro result st₃ hresult
  cases result with
  | error err =>
      intro stx hstx
      cases hstx
  | ok x =>
      obtain rfl := hresult
      apply (accountId_rotation cr ks _).bind
      rintro signerId st₄ ⟨v₂, hv₂, rfl⟩
      apply (sign_rotation cr ks _ _).bind
      rintro signature st₅ ⟨v₃, s, hv₃, hsign, rfl⟩
      intro stx hstx
      cases hstx
      refine ⟨v₀, v₁, v₂, v₃, (accountId, pk), s, ?_, ⟨hv₁, hv₀⟩, ⟨hv₂, hv₀⟩, hv₃, hsign⟩
      simp

theorem invalidateCache_rotation {key : CacheKey}
    (h : CallRecord.allowed cr ks st (.nonceRemove key)) :
    Follows (rotationProtocol cr ks) (fun _ st' => st' = st) st (invalidateCache key) :=
  ⟨trivial, fun _ => ⟨trivial, fun _ => ⟨h, fun _ => ⟨trivial, fun _ => rfl⟩⟩⟩⟩

/-- After the cache key was read and the transaction sent, the cache key may be removed. -/
theorem allowed_remove {v₀ v₁ : ℕ} {key : CacheKey} {stx : SignedTransaction} {st' : CallRecord}
    (hkey : ks.KeyAt cr v₀ v₁ key) (h : SignedWith cr ks stx ⟨[v₀, v₁], [], []⟩ st') :
    CallRecord.allowed cr ks ⟨st'.reads, st'.drawn, st'.sent ++ [stx.transaction]⟩
      (.nonceRemove key) := by
  obtain ⟨v₂, v₃, v₄, v₅, drawn, s, rfl, hdrawn, htx, -, -⟩ := h
  exact ⟨v₀, v₁, v₂, v₃, v₄, v₅, stx.transaction, drawn, rfl, hkey, htx, hdrawn⟩

theorem sendWith_rotation {α : Type} (waitUntil : TxExecutionStatus)
    {invalidate : CacheKey → SendReply → Task Unit} (hinvalidate : Invalidates invalidate)
    (result : SignedTransaction → SendReply → Result α) :
    Follows (rotationProtocol cr ks) (fun _ _ => True) .empty
      (sendWith cr (ks.ext cr) receiverId actions waitUntil invalidate result) := by
  apply sendWith_frame
    (K := fun key (st : CallRecord) => ∃ v₀ v₁, ks.KeyAt cr v₀ v₁ key ∧ st = ⟨[v₀, v₁], [], []⟩)
    (S := fun key signed (st : CallRecord) => ∀ stx, signed = .ok stx → CallRecord.allowed cr ks
      ⟨st.reads, st.drawn, st.sent ++ [stx.transaction]⟩ (.nonceRemove key))
  · apply (accountId_rotation cr ks .empty).bind
    rintro accountId st₀ ⟨v₀, hv₀, rfl⟩
    apply (publicKey_rotation cr ks _).bind
    rintro publicKey st₁ ⟨v₁, hv₁, rfl⟩
    exact ⟨v₀, v₁, ⟨hv₀, hv₁⟩, rfl⟩
  · rintro key _ ⟨v₀, v₁, hkey, rfl⟩
    apply (signTx_rotation cr ks _ receiverId actions).mono
    intro signed st' hsigned stx hstx
    exact allowed_remove cr ks hkey (hsigned stx hstx)
  · intro key err st _
    trivial
  · intro key stx st hallowed
    refine ⟨trivial, fun reply => ?_⟩
    have hremoval := invalidateCache_rotation cr ks _ (hallowed stx rfl)
    exact (hinvalidate _ _ key reply hremoval).mono fun _ _ _ => trivial

theorem sendTxOnce_rotation (waitUntil : TxExecutionStatus) :
    Follows (rotationProtocol cr ks) (fun _ _ => True) .empty
      (sendTxOnce cr (ks.ext cr) receiverId actions waitUntil) := by
  rw [sendTxOnce_eq]
  exact sendWith_rotation _ _ _ _ _ checkAndInvalidateCache_invalidates _

theorem sendTxAsync_rotation :
    Follows (rotationProtocol cr ks) (fun _ _ => True) .empty
      (sendTxAsync cr (ks.ext cr) receiverId actions) := by
  rw [sendTxAsync_eq]
  exact sendWith_rotation _ _ _ _ _ (invalidateCacheIf_invalidates _) _

end follows

end NearFetch
