import NearFetch.Client

/-! # Protocols that lookups do not move

`fetch_nonce` takes and drops guards, looks for the entry, and then draws from it or queries the
access key and inserts it.  A protocol that the former effects do not move has to say something of
the latter only: `fetchNonce_frame` is the rule for it.  A protocol that none of them moves has to say
nothing (`fetchNonceBody_fetching`). -/

namespace NearFetch

open Effects

/-- Effects on the lock, lookups and returns. -/
def Op.isLookup : Op → Bool
  | .lockRequest _ => true
  | .lockAcquire _ => true
  | .guardDrop => true
  | .nonceGet _ => true
  | .nonceReturned _ _ => true
  | _ => false

/-- Lookups are allowed everywhere and leave every state. -/
structure Unmoved (P : Protocol Op Op.Reply) : Prop where
  allowed : ∀ m e, e.isLookup = true → P.allowed m e
  next : ∀ m e r, e.isLookup = true → P.next m e r = m

section frame

variable {P : Protocol Op Op.Reply} {α : Type} {Q : α → P.State → Prop} {m : P.State}

theorem Unmoved.skip (h : Unmoved P) {e : Op} {k : e.Reply → Task α} (he : e.isLookup = true)
    (hk : ∀ r, Follows P Q m (k r)) : Follows P Q m (.op e k) := by
  refine ⟨h.allowed m e he, fun r => ?_⟩
  rw [h.next m e r he]
  exact hk r

theorem Unmoved.dropGuard (h : Unmoved P) {a : α} (ha : Q a m) :
    Follows P Q m (do dropGuard; return a) := h.skip rfl fun _ => ha

/-- What is left to show of a query for the access key, whose nonce is then inserted. -/
def Fetched (P : Protocol Op Op.Reply) (key : CacheKey)
    (Q : Result (Nonce × CryptoHash × BlockHeight) → P.State → Prop) :
    Result (AccessKeyView × CryptoHash × BlockHeight) → P.State → Prop
  | .error err, m => Q (.error err) m
  | .ok (view, blockHash, blockHeight), m =>
      P.allowed m (.nonceInsert key (wrapSucc view.nonce)) ∧
        Q (.ok (wrapSucc view.nonce, blockHash, blockHeight))
          (P.next m (.nonceInsert key (wrapSucc view.nonce)) ())

/-- `fetch_nonce` is a draw from the entry or a query for the access key. -/
theorem fetchNonce_frame (h : Unmoved P)
    {Q : Result (Nonce × CryptoHash × BlockHeight) → P.State → Prop} {accountId : AccountId}
    {publicKey : PublicKey} (hcached : Follows P Q m (cachedNonce (accountId, publicKey)))
    (hfetched : Follows P (Fetched P (accountId, publicKey) Q) m (accessKey accountId publicKey)) :
    Follows P Q m (fetchNonce accountId publicKey) := by
  have hhit : Follows P Q m
      (do let result ← cachedNonce (accountId, publicKey); dropGuard; return result) :=
    hcached.bind fun _ _ hQ => h.dropGuard hQ
  have hbody : Follows P Q m (fetchNonceBody accountId publicKey) := by
    refine h.skip rfl fun _ => h.skip rfl fun _ => h.skip rfl fun found => ?_
    cases found with
    | true => exact hhit
    | false =>
        -- another writer may have inserted the entry before the write guard was granted
        refine h.skip rfl fun _ => h.skip rfl fun _ => h.skip rfl fun _ => h.skip rfl fun found => ?_
        cases found with
        | true => exact hhit
        | false =>
            apply hfetched.bind
            intro result m' hresult
            cases result with
            | error err => exact h.dropGuard hresult
            | ok x => exact ⟨hresult.1, fun _ => h.dropGuard hresult.2⟩
  exact hbody.bind fun _ _ hQ => h.skip rfl fun _ => hQ

end frame

/-! ### The effects of a call -/

/-- The effects of `fetch_nonce` before its return. -/
def Op.isFetch : Op → Bool
  | .lockRequest _ => true
  | .lockAcquire _ => true
  | .guardDrop => true
  | .nonceGet _ => true
  | .nonceFetchAdd _ => true
  | .nonceInsert _ _ => true
  | .rpc (.block _) => true
  | .rpc (.query _ _) => true
  | _ => false

/-- The program has no other effects than a call of `fetch_nonce` before its return. -/
abbrev Fetching {α : Type} (p : Task α) : Prop := Only (fun e => e.isFetch = true) p

section fetching

theorem cachedNonce_fetching (key : CacheKey) : Fetching (cachedNonce key) := by
  refine ⟨rfl, fun n => ⟨rfl, fun reply => ?_⟩⟩
  cases reply <;> trivial

theorem accessKey_fetching (accountId : AccountId) (publicKey : PublicKey) :
    Fetching (accessKey accountId publicKey) := by
  refine ⟨rfl, fun reply => ?_⟩
  cases reply with
  | error err => trivial
  | ok resp =>
      obtain ⟨kind, blockHash, blockHeight⟩ := resp
      cases kind <;> trivial

theorem fetchNonceBody_fetching (accountId : AccountId) (publicKey : PublicKey) :
    Fetching (fetchNonceBody accountId publicKey) := by
  have hhit : Fetching
      (do let result ← cachedNonce (accountId, publicKey); dropGuard; return result) :=
    (cachedNonce_fetching _).bind fun result => ⟨rfl, fun _ => trivial⟩
  refine ⟨rfl, fun _ => ⟨rfl, fun _ => ⟨rfl, fun found => ?_⟩⟩⟩
  cases found with
  | true => exact hhit
  | false =>
      refine ⟨rfl, fun _ => ⟨rfl, fun _ => ⟨rfl, fun _ => ⟨rfl, fun found => ?_⟩⟩⟩⟩
      cases found with
      | true => exact hhit
      | false =>
          refine (accessKey_fetching accountId publicKey).bind fun result => ?_
          cases result with
          | error err => exact ⟨rfl, fun _ => trivial⟩
          | ok x => exact ⟨rfl, fun _ => ⟨rfl, fun _ => trivial⟩⟩

/-- A protocol state that these effects do not leave is that of the return. -/
theorem fetchNonce_still {P : Protocol Op Op.Reply} {m : P.State}
    (hfetch : ∀ e : Op, e.isFetch = true → P.allowed m e ∧ ∀ r, P.next m e r = m)
    (hpanic : P.mayPanic m) {Q : Result (Nonce × CryptoHash × BlockHeight) → P.State → Prop}
    {accountId : AccountId} {publicKey : PublicKey}
    (hreturn : ∀ result, P.allowed m (.nonceReturned (accountId, publicKey) result) ∧
      Q result (P.next m (.nonceReturned (accountId, publicKey) result) ())) :
    Follows P Q m (fetchNonce accountId publicKey) := by
  have hbody : Follows P (fun _ m' => m' = m) m (fetchNonceBody accountId publicKey) :=
    (fetchNonceBody_fetching accountId publicKey).follows hfetch hpanic
  apply hbody.bind
  rintro result _ rfl
  exact ⟨(hreturn result).1, fun _ => (hreturn result).2⟩

end fetching

end NearFetch
