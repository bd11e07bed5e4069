import NearFetch.RetryLoop
import NearFetch.Traces

/-! # What retrying looks like from outside

From outside, awaiting a transaction shows RPC calls with their replies, and sleeps (`Outward`); what the cache,
its lock and the rotation counter do is not seen.  An attempt to send either ends with a query that fails or
makes one query and one submission (`Attempt`).  Which transaction is submitted depends on the reply to the
query and on the answers of the signer (`Lookup.Signs`), and each of these can happen (`sendTxOnce_shows`).
`Retry::start` puts attempts that failed before the last one, with a delay after each, and stops at the first
success or when there is no delay left (`retryStart_shows`).  Together this says what awaiting a transaction
can show, and with which result (`retry_behaviour`): there is nothing else that it does, and nothing of this
that it cannot do. -/

namespace NearFetch

open Effects

/-- What the outside sees. -/
inductive Outward where
  | call (call : Rpc) (reply : call.Reply)
  | sleep (millis : ℕ)

def outward : Act Op Op.Reply → Option Outward
  | ⟨.rpc call, reply⟩ => some (.call call reply)
  | ⟨.sleep millis, _⟩ => some (.sleep millis)
  | _ => none

/-! ### Attempts -/

/-- A query of `fetch_nonce` with its reply: for the latest block, or for an access key. -/
inductive Lookup where
  | block (reply : Except (JsonRpcError RpcBlockError) BlockView)
  | accessKey (key : CacheKey) (reply : Except (JsonRpcError RpcQueryError) RpcQueryResponse)

namespace Lookup

def shown : Lookup → Outward
  | .block reply => .call (.block .latest) reply
  | .accessKey key reply => .call (.query (.finality .none) (.viewAccessKey key.1 key.2)) reply

/-- What a call of `fetch_nonce` for the key may return after the query.  The nonce that goes with a block is
drawn from the entry, which is not seen. -/
inductive Yields (key : CacheKey) : Lookup → Result (Nonce × CryptoHash × BlockHeight) → Prop
  | cached (nonce : Nonce) (h : nonce < 2 ^ 64) (block : BlockView) :
      Yields key (.block (.ok block)) (.ok (nonce, block.header.hash, block.header.height))
  | noBlock (err : JsonRpcError RpcBlockError) :
      Yields key (.block (.error err)) (.error (.rpc (.block err)))
  | fetched (view : AccessKeyView) (hash : CryptoHash) (height : BlockHeight) :
      Yields key (.accessKey key (.ok ⟨.accessKey view, hash, height⟩))
        (.ok (wrapSucc view.nonce, hash, height))
  | noKey (err : JsonRpcError RpcQueryError) :
      Yields key (.accessKey key (.error err)) (.error (.rpcQueryError err))
  | otherKind (resp : RpcQueryResponse) (h : ∀ view, resp.kind ≠ .accessKey view) :
      Yields key (.accessKey key (.ok resp))
        (.error (.rpcReturnedInvalidData "while querying access key"))

/-- What signing a transaction may return after the query: its error, or a transaction with these actions that
the signer has answered for, built on the block that the reply names. -/
inductive Signs (cr : Crypto) (signer : SignerExt) (receiverId : AccountId) (actions : List Action)
    (lookup : Lookup) : Result SignedTransaction → Prop
  | failed {accountId : AccountId} {publicKey : PublicKey} {err : Error}
      (haccount : CanReturn signer.accountId accountId) (hkey : CanReturn signer.publicKey publicKey)
      (hyields : lookup.Yields (accountId, publicKey) (.error err)) :
      Signs cr signer receiverId actions lookup (.error err)
  | signed {accountId signerId : AccountId} {publicKey : PublicKey} {nonce : Nonce}
      {blockHash : CryptoHash} {height : BlockHeight} {signature : Signature}
      (haccount : CanReturn signer.accountId accountId) (hkey : CanReturn signer.publicKey publicKey)
      (hyields : lookup.Yields (accountId, publicKey) (.ok (nonce, blockHash, height)))
      (hsigner : CanReturn signer.accountId signerId)
      (hsign : CanReturn (signer.sign
        (cr.getHash ⟨signerId, publicKey, nonce, receiverId, blockHash, actions⟩).bytes) signature) :
      Signs cr signer receiverId actions lookup
        (.ok ⟨signature, ⟨signerId, publicKey, nonce, receiverId, blockHash, actions⟩⟩)

end Lookup

/-- An attempt to send a transaction. -/
inductive Attempt where
  | unsent (lookup : Lookup) (err : Error)
  | sent (lookup : Lookup) (stx : SignedTransaction) (reply : SendReply)

namespace Attempt

def shown (level : TxExecutionStatus) : Attempt → List Outward
  | .unsent lookup _ => [lookup.shown]
  | .sent lookup stx reply => [lookup.shown, .call (.sendTx stx level) reply]

def result : Attempt → Result FinalExecutionOutcomeView
  | .unsent _ err => .error err
  | .sent _ _ reply => SendReply.received reply

/-- The attempt is one to send these actions. -/
def Of (cr : Crypto) (signer : SignerExt) (receiverId : AccountId) (actions : List Action) :
    Attempt → Prop
  | .unsent lookup err => lookup.Signs cr signer receiverId actions (.error err)
  | .sent lookup stx _ => lookup.Signs cr signer receiverId actions (.ok stx)

end Attempt

/-- The effect is not seen from outside. -/
def Op.isInward : Op → Bool
  | .rpc _ => false
  | .sleep _ => false
  | _ => true

section shows

variable {α : Type} {os : List Outward}

theorem outward_inward (e : Op) (r : e.Reply) (he : e.isInward = true) : outward ⟨e, r⟩ = none := by
  cases e <;> first | rfl | cases he

theorem Synchronous.inward {p : Task α} (hp : Synchronous p) :
    Only (fun e => e.isInward = true) p := by
  apply hp.mono
  intro e he
  cases e <;> first | rfl | cases he

theorem recorder_inward (os : List Outward) (e : Op) (r : e.Reply) (he : e.isInward = true) :
    (recorder outward).next os e r = os := by
  show os ++ (outward ⟨e, r⟩).toList = os
  rw [outward_inward e r he]
  exact List.append_nil os

theorem outward_unmoved : Unmoved (recorder outward) where
  allowed _ _ _ := trivial
  next os e r he := by
    refine recorder_inward os e r ?_
    cases e <;> first | rfl | cases he

theorem inward_records {p : Task α} (hp : Only (fun e => e.isInward = true) p) :
    Follows (recorder outward) (fun _ os' => os' = os) os p := by
  exact hp.follows (fun e he => ⟨trivial, fun r => recorder_inward os e r he⟩) trivial

theorem Synchronous.records {p : Task α} (hp : Synchronous p) :
    Follows (recorder outward) (fun a os' => os' = os ∧ CanReturn p a) os p :=
  (inward_records hp.inward).and_returns fun l _ h => ⟨l, h⟩

/-- A query was made for the key. -/
def LookedUp (key : CacheKey) (os : List Outward) (r : Result (Nonce × CryptoHash × BlockHeight))
    (os' : List Outward) : Prop :=
  ∃ lookup : Lookup, lookup.Yields key r ∧ os' = os ++ [lookup.shown]

theorem cachedNonce_records (key : CacheKey) :
    Follows (recorder outward) (LookedUp key os) os (cachedNonce key) := by
  refine ⟨trivial, fun nonce => ?_⟩
  rw [recorder_inward os _ _ rfl]
  refine ⟨trivial, fun reply => ?_⟩
  cases reply with
  | error err => exact ⟨.block (.error err), .noBlock err, rfl⟩
  | ok block =>
      exact ⟨.block (.ok block), .cached _ (Nat.mod_lt _ (Nat.two_pow_pos 64)) block, rfl⟩

theorem fetchNonce_records (accountId : AccountId) (publicKey : PublicKey) :
    Follows (recorder outward) (LookedUp (accountId, publicKey) os) os
      (fetchNonce accountId publicKey) := by
  refine fetchNonce_frame outward_unmoved (cachedNonce_records _) ⟨trivial, fun reply => ?_⟩
  cases reply with
  | error err => exact ⟨.accessKey _ (.error err), .noKey err, rfl⟩
  | ok resp =>
      obtain ⟨kind, hash, height⟩ := resp
      cases kind with
      | accessKey view =>
          refine ⟨trivial, .accessKey _ (.ok ⟨.accessKey view, hash, height⟩), .fetched view hash height, ?_⟩
          exact recorder_inward _ _ _ rfl
      | _ =>
          refine ⟨.accessKey _ (.ok ⟨_, hash, height⟩), .otherKind _ ?_, rfl⟩
          intro view h
          cases h

section sending

variable (cr : Crypto) (signer : SignerExt) (receiverId : AccountId) (actions : List Action)
  (waitUntil : TxExecutionStatus)

theorem signTx_records :
    Follows (recorder outward) (fun signed os' => ∃ lookup : Lookup,
        lookup.Signs cr signer receiverId actions signed ∧ os' = os ++ [lookup.shown]) os
      (signTx cr signer receiverId actions) := by
  apply signer.publicKey_sync.records.bind
  rintro pk _ ⟨rfl, hkey⟩
  apply signer.accountId_sync.records.bind
  rintro accountId _ ⟨rfl, haccount⟩
  apply (fetchNonce_records accountId pk).bind
  rintro fetched _ ⟨lookup, hyields, rfl⟩
  cases fetched with
  | error err => exact ⟨lookup, .failed haccount hkey hyields, rfl⟩
  | ok v =>
      apply signer.accountId_sync.records.bind
      rintro signerId _ ⟨rfl, hsigner⟩
      apply (signer.sign_sync _).records.bind
      rintro signature _ ⟨rfl, hsign⟩
      exact ⟨lookup, .signed haccount hkey hyields hsigner hsign, rfl⟩

theorem invalidateCache_inward (key : CacheKey) :
    Only (fun e => e.isInward = true) (invalidateCache key) :=
  ⟨rfl, fun _ => ⟨rfl, fun _ => ⟨rfl, fun _ => ⟨rfl, fun _ => trivial⟩⟩⟩⟩

theorem sendTxOnce_records :
    Follows (recorder outward) (fun r os' => ∃ a : Attempt, a.Of cr signer receiverId actions ∧
        os' = os ++ a.shown waitUntil ∧ r = a.result) os
      (sendTxOnce cr signer receiverId actions waitUntil) := by
  rw [sendTxOnce_eq]
  have hread : Only (fun e => e.isInward = true) (readKey signer) :=
    signer.accountId_sync.inward.bind fun _ => signer.publicKey_sync.inward.bind fun _ => trivial
  refine sendWith_frame (S := fun _ signed os' => ∃ lookup : Lookup,
    lookup.Signs cr signer receiverId actions signed ∧ os' = os ++ [lookup.shown])
    (inward_records hread) ?_ ?_ ?_
  · rintro key _ rfl
    exact signTx_records cr signer receiverId actions
  · rintro key err _ ⟨lookup, hsigns, rfl⟩
    exact ⟨.unsent lookup err, hsigns, rfl, rfl⟩
  · rintro key stx _ ⟨lookup, hsigns, rfl⟩
    refine ⟨trivial, fun reply => ?_⟩
    have hnext : (recorder outward).next (os ++ [lookup.shown]) (.rpc (.sendTx stx waitUntil)) reply =
        os ++ (Attempt.sent lookup stx reply).shown waitUntil :=
      List.append_assoc os [lookup.shown] [.call (.sendTx stx waitUntil) reply]
    rw [hnext]
    refine (inward_records
      (checkAndInvalidateCache_invalidates.only (invalidateCache_inward key) reply)).mono ?_
    rintro _ _ rfl
    exact ⟨.sent lookup stx reply, hsigns, rfl, rfl⟩

end sending

/-! ### Everything of this can happen -/

/-- Replies to a lookup: whether the entry is found and what it holds, and the replies to the two kinds of
queries. -/
def lookupReplies (found : Bool) (nonce : Nonce) (block : Except (JsonRpcError RpcBlockError) BlockView)
    (key : Except (JsonRpcError RpcQueryError) RpcQueryResponse) : (e : Op) → e.Reply
  | .rpc (.block _) => block
  | .rpc (.query _ _) => key
  | .rpc (.gasPrice _) => .error (.transportError "")
  | .rpc (.chunk _) => .error (.transportError "")
  | .rpc (.sendTx _ _) => .error (.transportError "")
  | .rpc (.tx _ _ _) => .error (.transportError "")
  | .nonceGet _ => found
  | .nonceFetchAdd _ => nonce
  | .counterLoad _ => (0 : ℕ)
  | .counterFetchAdd _ => (0 : ℕ)
  | .lockRequest _ => ()
  | .lockAcquire _ => ()
  | .guardDrop => ()
  | .nonceInsert _ _ => ()
  | .nonceRemove _ => ()
  | .sleep _ => ()
  | .nonceReturned _ _ => ()

theorem exists_wrapSucc {n : Nonce} (h : n < 2 ^ 64) : ∃ m, wrapSucc m = n := by
  refine ⟨n + (2 ^ 64 - 1), ?_⟩
  rw [wrapSucc, Nat.add_assoc, Nat.sub_add_cancel (Nat.two_pow_pos 64), Nat.add_mod_right,
    Nat.mod_eq_of_lt h]

/-- A lookup can end with whatever the query yields. -/
theorem fetchNonce_can {key : CacheKey} {lookup : Lookup}
    {r : Result (Nonce × CryptoHash × BlockHeight)} (h : lookup.Yields key r) :
    Shows outward (fetchNonce key.1 key.2) [lookup.shown] r := by
  let down : Except (JsonRpcError RpcQueryError) RpcQueryResponse := .error (.transportError "")
  let latest : Except (JsonRpcError RpcBlockError) BlockView := .ok ⟨⟨⟨[]⟩, 0⟩⟩
  cases h with
  | cached nonce hlt block =>
      obtain ⟨m, rfl⟩ := exists_wrapSucc hlt
      exact ⟨_, walk_returns (lookupReplies true m (.ok block) down) rfl, rfl⟩
  | noBlock err => exact ⟨_, walk_returns (lookupReplies true 0 (.error err) down) rfl, rfl⟩
  | fetched view hash height =>
      exact ⟨_, walk_returns
        (lookupReplies false 0 latest (.ok ⟨.accessKey view, hash, height⟩)) rfl, rfl⟩
  | noKey err => exact ⟨_, walk_returns (lookupReplies false 0 latest (.error err)) rfl, rfl⟩
  | otherKind resp hkind =>
      obtain ⟨kind, hash, height⟩ := resp
      let replies := lookupReplies false 0 latest (.ok ⟨kind, hash, height⟩)
      cases kind with
      | accessKey view => exact absurd rfl (hkind view)
      | _ => exact ⟨_, walk_returns replies rfl, rfl⟩

theorem invalidateCacheIf_can (condition : Bool) (key : CacheKey) :
    Shows outward (invalidateCacheIf condition key) [] () := by
  cases condition with
  | true =>
      let block : Except (JsonRpcError RpcBlockError) BlockView := .error (.transportError "")
      let accessKey : Except (JsonRpcError RpcQueryError) RpcQueryResponse :=
        .error (.transportError "")
      exact ⟨_, walk_returns (lookupReplies true 0 block accessKey) rfl, rfl⟩
  | false => exact ⟨[], .refl _, rfl⟩

theorem checkAndInvalidateCache_can (key : CacheKey) (reply : SendReply) :
    Shows outward (checkAndInvalidateCache key reply) [] () := by
  have hfor : ∀ errs, Shows outward (invalidateCacheFor key errs) [] () := by
    intro errs
    induction errs with
    | nil => exact ⟨[], .refl _, rfl⟩
    | cons err errs ih => exact shows_bind.mpr ⟨(), [], [], rfl, invalidateCacheIf_can _ key, ih⟩
  refine shows_bind.mpr ⟨(), [], [], rfl, invalidateCacheIf_can _ key, ?_⟩
  cases reply with
  | error err => exact ⟨[], .refl _, rfl⟩
  | ok response => exact hfor (fetchTxErrs response)

theorem Synchronous.can {p : Task α} (hp : Synchronous p) {a : α} (h : CanReturn p a) :
    Shows outward p [] a := by
  obtain ⟨l, hl⟩ := h
  have hshown : l.filterMap outward = [] := Only.shows outward_inward hp.inward ⟨l, hl, rfl⟩
  exact ⟨l, hl, hshown⟩

section sending

variable (cr : Crypto) {signer : SignerExt} (receiverId : AccountId) (actions : List Action)
  (waitUntil : TxExecutionStatus)

theorem signTx_can {lookup : Lookup} {signed : Result SignedTransaction}
    (h : lookup.Signs cr signer receiverId actions signed) :
    Shows outward (signTx cr signer receiverId actions) [lookup.shown] signed := by
  cases h with
  | failed haccount hkey hyields =>
      exact shows_bind.mpr ⟨_, [], _, rfl, signer.publicKey_sync.can hkey,
        shows_bind.mpr ⟨_, [], _, rfl, signer.accountId_sync.can haccount,
          shows_bind.mpr ⟨_, _, [], rfl, fetchNonce_can hyields, shows_pure.mpr ⟨rfl, rfl⟩⟩⟩⟩
  | signed haccount hkey hyields hsigner hsign =>
      exact shows_bind.mpr ⟨_, [], _, rfl, signer.publicKey_sync.can hkey,
        shows_bind.mpr ⟨_, [], _, rfl, signer.accountId_sync.can haccount,
          shows_bind.mpr ⟨_, _, [], rfl, fetchNonce_can hyields,
            shows_bind.mpr ⟨_, [], [], rfl, signer.accountId_sync.can hsigner,
              shows_bind.mpr ⟨_, [], [], rfl, (signer.sign_sync _).can hsign,
                shows_pure.mpr ⟨rfl, rfl⟩⟩⟩⟩⟩⟩

theorem readKey_can {lookup : Lookup} {signed : Result SignedTransaction}
    (h : lookup.Signs cr signer receiverId actions signed) :
    ∃ key, Shows outward (readKey signer) [] key := by
  have hread : ∃ accountId publicKey, CanReturn signer.accountId accountId ∧
      CanReturn signer.publicKey publicKey := by
    cases h with
    | failed haccount hkey _ => exact ⟨_, _, haccount, hkey⟩
    | signed haccount hkey _ _ _ => exact ⟨_, _, haccount, hkey⟩
  obtain ⟨accountId, publicKey, haccount, hkey⟩ := hread
  exact ⟨(accountId, publicKey), shows_bind.mpr ⟨_, [], [], rfl, signer.accountId_sync.can haccount,
    shows_bind.mpr ⟨_, [], [], rfl, signer.publicKey_sync.can hkey, shows_pure.mpr ⟨rfl, rfl⟩⟩⟩⟩

theorem sendTxOnce_can {a : Attempt} (ha : a.Of cr signer receiverId actions) :
    Shows outward (sendTxOnce cr signer receiverId actions waitUntil) (a.shown waitUntil) a.result := by
  rw [sendTxOnce_eq]
  cases a with
  | unsent lookup err =>
      obtain ⟨key, hkey⟩ := readKey_can cr receiverId actions ha
      exact shows_bind.mpr ⟨key, [], _, rfl, hkey, shows_bind.mpr ⟨_, _, [], rfl,
        signTx_can cr receiverId actions ha, shows_pure.mpr ⟨rfl, rfl⟩⟩⟩
  | sent lookup stx reply =>
      obtain ⟨key, hkey⟩ := readKey_can cr receiverId actions ha
      exact shows_bind.mpr ⟨key, [], _, rfl, hkey, shows_bind.mpr ⟨_, [lookup.shown], _, rfl,
        signTx_can cr receiverId actions ha, shows_perform.mpr ⟨reply, [], rfl,
          shows_bind.mpr ⟨(), [], [], rfl, checkAndInvalidateCache_can key reply,
            shows_pure.mpr ⟨rfl, rfl⟩⟩⟩⟩⟩

/-- What one attempt shows, and its result. -/
theorem sendTxOnce_shows {r : Result FinalExecutionOutcomeView} :
    Shows outward (sendTxOnce cr signer receiverId actions waitUntil) os r ↔
      ∃ a : Attempt, a.Of cr signer receiverId actions ∧ os = a.shown waitUntil ∧ r = a.result := by
  constructor
  · intro h
    have hrecords : Follows (recorder outward) (fun r os' => ∃ a : Attempt,
        a.Of cr signer receiverId actions ∧ os' = [] ++ a.shown waitUntil ∧ r = a.result) []
        (sendTxOnce cr signer receiverId actions waitUntil) :=
      sendTxOnce_records cr signer receiverId actions waitUntil
    exact hrecords.shows h
  · rintro ⟨a, ha, rfl, rfl⟩
    exact sendTxOnce_can cr receiverId actions waitUntil ha

end sending

end shows

/-! ### Retries -/

/-- Attempts of the kind `A`: those before the last one failed, and there was no reason or no delay for
another. -/
structure Retries (A : Attempt → Prop) (strategy : List ℕ) (failed : List Attempt) (last : Attempt) :
    Prop where
  attempts : ∀ a ∈ failed, A a
  attempt : A last
  fails : ∀ a ∈ failed, a.result.isOk = false
  delays : failed.length ≤ strategy.length
  ends : last.result.isOk = true ∨ failed.length = strategy.length

section retries

variable {A : Attempt → Prop} {strategy : List ℕ} {failed : List Attempt} {last a : Attempt}
  {delay : ℕ}

theorem Retries.single (ha : A a) (hends : a.result.isOk = true ∨ strategy = []) :
    Retries A strategy [] a where
  attempts _ h := absurd h List.not_mem_nil
  attempt := ha
  fails _ h := absurd h List.not_mem_nil
  delays := Nat.zero_le _
  ends := hends.imp_right fun h => (List.length_eq_zero_iff.mpr h).symm

theorem Retries.cons (h : Retries A strategy failed last) (ha : A a) (hfails : a.result.isOk = false) :
    Retries A (delay :: strategy) (a :: failed) last where
  attempts := List.forall_mem_cons.mpr ⟨ha, h.attempts⟩
  attempt := h.attempt
  fails := List.forall_mem_cons.mpr ⟨hfails, h.fails⟩
  delays := Nat.succ_le_succ h.delays
  ends := h.ends.imp_right (congrArg Nat.succ)

theorem Retries.tail (h : Retries A (delay :: strategy) (a :: failed) last) :
    Retries A strategy failed last where
  attempts := fun b hb => h.attempts b (List.mem_cons_of_mem _ hb)
  attempt := h.attempt
  fails := fun b hb => h.fails b (List.mem_cons_of_mem _ hb)
  delays := Nat.le_of_succ_le_succ h.delays
  ends := h.ends.imp_right Nat.succ.inj

/-- What such attempts show: a delay after each that failed. -/
def retriesShown (level : TxExecutionStatus) (strategy : List ℕ) (failed : List Attempt)
    (last : Attempt) : List Outward :=
  (List.zipWith (fun a delay => a.shown level ++ [.sleep delay]) failed strategy).flatten ++
    last.shown level

theorem retriesShown_cons (level : TxExecutionStatus) (delay : ℕ) (strategy : List ℕ) (a : Attempt)
    (failed : List Attempt) (last : Attempt) :
    retriesShown level (delay :: strategy) (a :: failed) last =
      a.shown level ++ .sleep delay :: retriesShown level strategy failed last := by
  simp [retriesShown]

theorem retryStart_shows {level : TxExecutionStatus} {action : Task (Result FinalExecutionOutcomeView)}
    (haction : ∀ os r, Shows outward action os r ↔
      ∃ a : Attempt, A a ∧ os = a.shown level ∧ r = a.result)
    (strategy : List ℕ) {os : List Outward} {r : Result FinalExecutionOutcomeView} :
    Shows outward (retryStart strategy action) os r ↔
      ∃ failed last, Retries A strategy failed last ∧
        os = retriesShown level strategy failed last ∧ r = last.result := by
  induction strategy generalizing os with
  | nil =>
      rw [retryStart, haction]
      constructor
      · rintro ⟨a, ha, rfl, rfl⟩
        exact ⟨[], a, .single ha (.inr rfl), rfl, rfl⟩
      · rintro ⟨failed, last, h, rfl, rfl⟩
        cases List.eq_nil_of_length_eq_zero (Nat.le_zero.mp h.delays)
        exact ⟨last, h.attempt, rfl, rfl⟩
  | cons delay strategy ih =>
      rw [retryStart, shows_bind]
      constructor
      · rintro ⟨result, os₁, os₂, rfl, h₁, h₂⟩
        obtain ⟨a, hmade, rfl, rfl⟩ := (haction _ _).mp h₁
        cases ha : a.result with
        | ok outcome =>
            rw [ha] at h₂
            obtain ⟨rfl, rfl⟩ := shows_pure.mp h₂
            have hends : a.result.isOk = true := by
              rw [ha]
              rfl
            exact ⟨[], a, .single hmade (.inl hends), List.append_nil _, ha.symm⟩
        | error err =>
            rw [ha] at h₂
            obtain ⟨_, os₃, rfl, h₃⟩ := shows_perform.mp h₂
            obtain ⟨failed, last, h, rfl, rfl⟩ := ih.mp h₃
            refine ⟨a :: failed, last, h.cons hmade ?_, ?_, rfl⟩
            · rw [ha]
              rfl
            · exact (retriesShown_cons _ _ _ _ _ _).symm
      · rintro ⟨failed, last, h, rfl, rfl⟩
        cases failed with
        | nil =>
            have hok : last.result.isOk = true := by
              rcases h.ends with hok | hlength
              · exact hok
              · cases hlength
            refine ⟨last.result, last.shown level, [], (List.append_nil _).symm,
              (haction _ _).mpr ⟨last, h.attempt, rfl, rfl⟩, ?_⟩
            cases hlast : last.result with
            | ok outcome => exact shows_pure.mpr ⟨rfl, rfl⟩
            | error err =>
                rw [hlast] at hok
                cases hok
        | cons a failed =>
            have hfails : a.result.isOk = false := h.fails a List.mem_cons_self
            refine ⟨a.result, a.shown level, .sleep delay :: retriesShown level strategy failed last, ?_,
              (haction _ _).mpr ⟨a, h.attempts a List.mem_cons_self, rfl, rfl⟩, ?_⟩
            · exact retriesShown_cons _ _ _ _ _ _
            · cases hresult : a.result with
              | ok outcome =>
                  rw [hresult] at hfails
                  cases hfails
              | error err =>
                  exact shows_perform.mpr ⟨(), _, rfl, ih.mpr ⟨failed, last, h.tail, rfl, rfl⟩⟩

end retries

theorem resend_shows (cr : Crypto) (signer : SignerExt) (receiverId : AccountId)
    (actions : List Action) (waitUntil : TxExecutionStatus) (strategy : List ℕ) {os : List Outward}
    {r : Result FinalExecutionOutcomeView} :
    Shows outward (retryStart strategy (sendTxOnce cr signer receiverId actions waitUntil)) os r ↔
      ∃ failed last, Retries (Attempt.Of cr signer receiverId actions) strategy failed last ∧
        os = retriesShown waitUntil strategy failed last ∧ r = last.result :=
  retryStart_shows (fun _ _ => sendTxOnce_shows cr receiverId actions waitUntil) strategy

/-- Awaiting a transaction whose actions are in order: it shows attempts that failed, each followed by its
delay, and a last one, whose result it returns; and whatever is of this form can be shown. -/
theorem retry_behaviour (cr : Crypto) {t : RetryableTransaction} {actions : List Action}
    (hactions : t.actions = .ok actions) {os : List Outward} {r : Result FinalExecutionOutcomeView} :
    Shows outward (t.intoFuture cr) os r ↔
      ∃ failed last,
        Retries (Attempt.Of cr t.signer t.receiverId actions) (t.strategy.getD []) failed last ∧
        os = retriesShown t.waitUntil (t.strategy.getD []) failed last ∧ r = last.result := by
  rw [t.intoFuture_ok cr hactions]
  exact resend_shows cr t.signer t.receiverId actions t.waitUntil _

/-- The transfer with the nonce 5, built on the block 7. -/
def fifthTransfer : Transaction :=
  ⟨payer.accountId, payer.publicKey, 5, ⟨"bob.near"⟩, ⟨[7]⟩, [.transfer 1]⟩

/-- The first submission times out, and after the delay the block cannot be had. -/
theorem retry_behaviour_transferOnce :
    Shows outward (transferOnce.intoFuture .transparent)
      [.call (.block .latest) (.ok ⟨⟨⟨[7]⟩, 7⟩⟩),
        .call (.sendTx ⟨payer.sign .transparent (Crypto.transparent.getHash fifthTransfer).bytes,
          fifthTransfer⟩ .executedOptimistic) (.error (.serverError (.handlerError .timeoutError))),
        .sleep 100, .call (.block .latest) (.error (.transportError "closed"))]
      (.error (.rpc (.block (.transportError "closed")))) := by
  have haccount : CanReturn transferOnce.signer.accountId payer.accountId := ⟨[], .refl _⟩
  have hkey : CanReturn transferOnce.signer.publicKey payer.publicKey := ⟨[], .refl _⟩
  let lookup : Lookup := .block (.ok ⟨⟨⟨[7]⟩, 7⟩⟩)
  have hsigned : lookup.Signs .transparent transferOnce.signer ⟨"bob.near"⟩ [.transfer 1]
      (.ok ⟨payer.sign .transparent (Crypto.transparent.getHash fifthTransfer).bytes, fifthTransfer⟩) :=
    .signed haccount hkey (.cached 5 (by decide) _) haccount ⟨[], .refl _⟩
  have hfailed : (Lookup.block (.error (.transportError "closed"))).Signs .transparent
      transferOnce.signer ⟨"bob.near"⟩ [.transfer 1]
      (.error (.rpc (.block (.transportError "closed")))) :=
    .failed haccount hkey (.noBlock _)
  have hlast : Retries (Attempt.Of .transparent transferOnce.signer ⟨"bob.near"⟩ [.transfer 1]) []
      [] (.unsent (.block (.error (.transportError "closed")))
        (.rpc (.block (.transportError "closed")))) := .single hfailed (.inr rfl)
  exact (retry_behaviour .transparent rfl).mpr
    ⟨[.sent lookup _ (.error (.serverError (.handlerError .timeoutError)))], _,
      hlast.cons hsigned rfl, rfl, rfl⟩

end NearFetch
