import NearFetch.Effects

/-! # Signers (`signer.rs`)

The signers of `near-crypto` and the key-rotating signer over them.  A signer is used
through the trait `SignerExt`, here a record of programs, because a key-rotating signer reads
and moves a counter that it shares with its clones.  The methods of the trait are not `async`, so
they cannot wait for the lock or for a reply: `Synchronous` says this of a program, and
`SignerExt` carries it.  Each method of `KeyRotatingSigner` touches the counter once:
`publicKey` and `accountId` load it, `sign` increments it.  Indexing an empty list of
signers panics in the remainder, and `unimplemented!()` is a panic too. -/

namespace NearFetch

open Effects

/-- `InMemorySigner` of `near-crypto`. -/
structure InMemorySigner where
  accountId : AccountId
  publicKey : PublicKey
  secretKey : SecretKey
deriving DecidableEq, Repr

/-- `Signer` of `near-crypto`. -/
inductive Signer where
  | empty
  | inMemory (signer : InMemorySigner)
deriving DecidableEq, Repr

/-! ### Synchronous programs -/

/-- The effects that a program without `.await` can have. -/
def Op.isCounter : Op → Bool
  | .counterLoad _ => true
  | .counterFetchAdd _ => true
  | _ => false

/-- The program touches rotation counters and nothing else. -/
abbrev Synchronous {α : Type} (p : Task α) : Prop := Only (fun e => e.isCounter = true) p

/-- The trait `SignerExt` with its supertrait `ExposeAccountId`. -/
structure SignerExt where
  accountId : Task AccountId
  publicKey : Task PublicKey
  sign : List UInt8 → Task Signature
  accountId_sync : Synchronous accountId
  publicKey_sync : Synchronous publicKey
  sign_sync : ∀ data, Synchronous (sign data)

variable (cr : Crypto)

/-- `InMemorySigner::from_secret_key`. -/
def InMemorySigner.fromSecretKey (accountId : AccountId) (secretKey : SecretKey) : Signer :=
  .inMemory ⟨accountId, cr.publicKey secretKey, secretKey⟩

/-- `InMemorySigner::sign`. -/
def InMemorySigner.sign (s : InMemorySigner) (data : List UInt8) : Signature :=
  cr.sign s.secretKey data

/-- `impl SignerExt for InMemorySigner`. -/
def InMemorySigner.ext (s : InMemorySigner) : SignerExt where
  accountId := pure s.accountId
  publicKey := pure s.publicKey
  sign data := pure (s.sign cr data)
  accountId_sync := trivial
  publicKey_sync := trivial
  sign_sync _ := trivial

namespace Signer

/-- `Signer::public_key` of `near-crypto`. -/
def publicKey : Signer → PublicKey
  | .empty => cr.emptyPublicKey
  | .inMemory s => s.publicKey

/-- `Signer::sign` of `near-crypto`. -/
def sign : Signer → List UInt8 → Signature
  | .empty, _ => cr.emptySignature
  | .inMemory s, data => s.sign cr data

/-- The account of a signer that has one. -/
def account? : Signer → Option AccountId
  | .empty => none
  | .inMemory s => some s.accountId

/-- `impl ExposeAccountId for Signer`. -/
def accountId : Signer → Task AccountId
  | .empty => .panic "not implemented"
  | .inMemory s => pure s.accountId

theorem accountId_sync (s : Signer) : Synchronous s.accountId := by
  cases s <;> trivial

/-- `impl SignerExt for Signer`. -/
def ext (s : Signer) : SignerExt where
  accountId := s.accountId
  publicKey := match s with
    | .empty => .panic "not implemented"
    | .inMemory s => pure s.publicKey
  sign data := match s with
    | .empty => .panic "not implemented"
    | .inMemory s => pure (s.sign cr data)
  accountId_sync := s.accountId_sync
  publicKey_sync := by cases s <;> trivial
  sign_sync := by cases s <;> exact fun _ => trivial

/-- `Signer::compute_vrf_with_proof` of `near-crypto`; `vrf` is what it computes for a secret key, and
`none` for a key of a curve without it. -/
def computeVrfWithProof {V : Type} (vrf : SecretKey → List UInt8 → Option V) :
    Signer → List UInt8 → Task V
  | .empty, _ => .panic "not implemented"
  | .inMemory s, data =>
      match vrf s.secretKey data with
      | some output => pure output
      | none => .panic "explicit panic"

end Signer

/-- A key rotating in memory signer, that rotates the key used for signing on each call to
`sign`; `counter` is the address of the shared counter. -/
structure KeyRotatingSigner where
  signers : List Signer
  counter : CounterId

namespace KeyRotatingSigner

/-- `KeyRotatingSigner::from_signers`, with a counter at the given fresh address. -/
def fromSigners (signers : List Signer) (counter : CounterId) : KeyRotatingSigner :=
  ⟨signers, counter⟩

/-- `KeyRotatingSigner::try_from_iter`. -/
def tryFromIter (iter : List (AccountId × SecretKey)) (counter : CounterId) :
    Result KeyRotatingSigner :=
  let (accountIds, secretKeys) := iter.unzip
  match accountIds with
  | [] => .error (.invalidArgs "must have at least one entry")
  | first :: rest =>
      if rest.all fun item => item = first then
        .ok (fromSigners (secretKeys.map (InMemorySigner.fromSecretKey cr first)) counter)
      else
        .error (.invalidArgs "provided account ids are not all the same")

variable (ks : KeyRotatingSigner)

/-- `&self.signers[count % self.signers.len()]`. -/
def select (count : ℕ) : Task Signer :=
  match ks.signers[count % ks.signers.length]? with
  | some s => pure s
  | none => .panic "attempt to calculate the remainder with a divisor of zero"

/-- Fetches the current signer in the key rotation. -/
def currentSigner : Task Signer := do
  let count ← effect (.counterLoad ks.counter)
  ks.select count

/-- Fetches the current signer and rotates to the next one. -/
def fetchAndRotateSigner : Task Signer := do
  let idx ← effect (.counterFetchAdd ks.counter)
  ks.select idx

/-- `KeyRotatingSigner::public_key`. -/
def publicKey : Task PublicKey := do
  let s ← ks.currentSigner
  return s.publicKey cr

/-- `KeyRotatingSigner::sign`. -/
def sign (data : List UInt8) : Task Signature := do
  let s ← ks.fetchAndRotateSigner
  return s.sign cr data

/-- `KeyRotatingSigner::compute_vrf_with_proof`. -/
def computeVrfWithProof {V : Type} (vrf : SecretKey → List UInt8 → Option V) (data : List UInt8) :
    Task V := do
  let s ← ks.currentSigner
  s.computeVrfWithProof vrf data

/-- `impl ExposeAccountId for KeyRotatingSigner`. -/
def accountId : Task AccountId := do
  let s ← ks.currentSigner
  s.accountId

theorem select_sync (count : ℕ) : Synchronous (ks.select count) := by
  unfold select
  cases ks.signers[count % ks.signers.length]? <;> trivial

theorem currentSigner_sync : Synchronous ks.currentSigner := ⟨rfl, ks.select_sync⟩

theorem fetchAndRotateSigner_sync : Synchronous ks.fetchAndRotateSigner := ⟨rfl, ks.select_sync⟩

/-- `impl SignerExt for KeyRotatingSigner`. -/
def ext : SignerExt where
  accountId := ks.accountId
  publicKey := ks.publicKey cr
  sign := ks.sign cr
  accountId_sync := ks.currentSigner_sync.bind Signer.accountId_sync
  publicKey_sync := ks.currentSigner_sync.bind fun _ => trivial
  sign_sync _ := ks.fetchAndRotateSigner_sync.bind fun _ => trivial

end KeyRotatingSigner

end NearFetch
