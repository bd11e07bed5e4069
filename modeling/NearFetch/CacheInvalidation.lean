import NearFetch.Client

/-! # When the reply to a transaction removes an entry

`check_and_invalidate_cache` looks at a reply and removes one entry, or nothing.
`ReportsInvalidNonce` says of a reply that the nonce of the transaction, or of a delegate action in it,
was not valid, wherever the reply says so; `invalidates_iff` is the work of comparing the code's
decision with it.  What is done to the cache then has two halves: alone, from a free lock, the call
ends and leaves the cache as decided (`checkAndInvalidateCache_ends`), and on every path, whatever
other tasks do in between, it removes that entry as decided and touches no other
(`removalProtocol`). -/

namespace NearFetch

open Effects FifoLock

/-! ### Replies that report an invalid nonce -/

/-- The nonce of the transaction, or of a delegate action in it, was not valid. -/
def TxExecutionError.IsInvalidNonce (err : TxExecutionError) : Prop :=
  (∃ txNonce akNonce, err = .invalidTxError (.invalidNonce txNonce akNonce)) ∨
    ∃ index delegateNonce akNonce,
      err = .actionError ⟨index, .delegateActionInvalidNonce delegateNonce akNonce⟩

theorem TxExecutionError.invalidCache_iff (err : TxExecutionError) :
    err.invalidCache = true ↔ err.IsInvalidNonce := by
  unfold IsInvalidNonce
  cases err with
  | actionError error =>
      obtain ⟨index, kind⟩ := error
      cases kind <;> simp [invalidCache]
  | invalidTxError error => cases error <;> simp [invalidCache]

/-- The error is that of the final status, of the transaction or of a receipt. -/
def FinalExecutionOutcomeView.FailsWith (view : FinalExecutionOutcomeView)
    (err : TxExecutionError) : Prop :=
  view.status = .failure err ∨ view.transactionOutcome.outcome.status = .failure err ∨
    ∃ receipt ∈ view.receiptsOutcome, receipt.outcome.status = .failure err

/-- The reply rejects the transaction because of its nonce, or holds an outcome that fails because of
an invalid nonce. -/
def ReportsInvalidNonce (result : SendReply) : Prop :=
  (∃ txNonce akNonce, result = .error (.serverError (.handlerError (.invalidTransaction
    (.invalidNonce txNonce akNonce))))) ∨
  ∃ response outcome err, result = .ok response ∧ response.finalExecutionOutcome = some outcome ∧
    outcome.intoOutcome.FailsWith err ∧ err.IsInvalidNonce

theorem FinalExecutionStatus.failure?_eq_some {status : FinalExecutionStatus}
    {err : TxExecutionError} : status.failure? = some err ↔ status = .failure err := by
  cases status <;> simp [failure?]

theorem ExecutionStatusView.failure?_eq_some {status : ExecutionStatusView}
    {err : TxExecutionError} : status.failure? = some err ↔ status = .failure err := by
  cases status <;> simp [failure?]

theorem fetchTxErrs_some (outcome : FinalExecutionOutcomeViewEnum) (level : TxExecutionStatus) :
    fetchTxErrs ⟨some outcome, level⟩ = outcome.intoOutcome.status.failure?.toList ++
      outcome.intoOutcome.transactionOutcome.outcome.status.failure?.toList ++
      outcome.intoOutcome.receiptsOutcome.filterMap fun receipt =>
        receipt.outcome.status.failure? := by
  cases outcome <;> rfl

theorem mem_fetchTxErrs {response : RpcTransactionResponse} {err : TxExecutionError} :
    err ∈ fetchTxErrs response ↔ ∃ outcome, response.finalExecutionOutcome = some outcome ∧
      outcome.intoOutcome.FailsWith err := by
  obtain ⟨outcome, level⟩ := response
  cases outcome with
  | none => simp [fetchTxErrs]
  | some outcome =>
      rw [fetchTxErrs_some]
      simp only [List.mem_append, Option.mem_toList, List.mem_filterMap,
        FinalExecutionStatus.failure?_eq_some, ExecutionStatusView.failure?_eq_some,
        Option.some.injEq, exists_eq_left', FinalExecutionOutcomeView.FailsWith, or_assoc]

/-- What `check_and_invalidate_cache` decides. -/
def SendReply.invalidates (result : SendReply) : Bool :=
  SendReply.invalidNonce result ||
    match result with
    | .error _ => false
    | .ok response => (fetchTxErrs response).any TxExecutionError.invalidCache

theorem SendReply.invalidates_ok (response : RpcTransactionResponse) :
    SendReply.invalidates (.ok response) =
      (fetchTxErrs response).any TxExecutionError.invalidCache := rfl

theorem SendReply.invalidNonce_iff (result : SendReply) :
    SendReply.invalidNonce result = true ↔ ∃ txNonce akNonce, result = .error (.serverError
      (.handlerError (.invalidTransaction (.invalidNonce txNonce akNonce)))) := by
  unfold SendReply.invalidNonce
  split
  · simp
  · rename_i h
    constructor
    · intro hfalse
      cases hfalse
    · rintro ⟨txNonce, akNonce, rfl⟩
      exact absurd rfl (h txNonce akNonce)

theorem invalidates_iff (result : SendReply) :
    SendReply.invalidates result = true ↔ ReportsInvalidNonce result := by
  unfold SendReply.invalidates ReportsInvalidNonce
  rw [Bool.or_eq_true, SendReply.invalidNonce_iff]
  cases result with
  | error err => simp
  | ok response =>
      simp only [List.any_eq_true, mem_fetchTxErrs, TxExecutionError.invalidCache_iff]
      constructor
      · rintro (⟨_, _, herr⟩ | ⟨err, ⟨outcome, hout, hfails⟩, herr⟩)
        · cases herr
        · exact .inr ⟨response, outcome, err, rfl, hout, hfails, herr⟩
      · rintro (⟨_, _, herr⟩ | ⟨_, outcome, err, heq, hout, hfails, herr⟩)
        · cases herr
        · cases heq
          exact .inr ⟨err, ⟨outcome, hout, hfails⟩, herr⟩

/-! ### The call alone -/

section alone

variable {ι W A : Type} [DecidableEq ι] {w : ℕ} {ep : Endpoint W A} {t : ι}
  {ans : Shared ι W → (e : Op) → Option e.Reply} {counters : CounterId → ℕ}
  {nonces : CacheKey → Option Nonce} {e : W}

theorem lockNonces_ends (mode : Mode) :
    Ends (machine w ep) t ans (lockNonces mode) ⟨counters, nonces, .free, e⟩ ()
      ⟨counters, nonces, RwLock.free.grant t [] mode, e⟩ := by
  refine Ends.op rfl (Ends.op ?_ (ends_pure _ _))
  change ((RwLock.free.request t mode).acquire t mode).map _ = _
  rw [RwLock.acquire_request_free]
  rfl

theorem dropGuard_ends (mode : Mode) :
    Ends (machine w ep) t ans dropGuard ⟨counters, nonces, RwLock.free.grant t [] mode, e⟩ ()
      ⟨counters, nonces, .free, e⟩ := by
  apply Ends.perform
  change some ((), (⟨counters, nonces, (RwLock.free.grant t [] mode).release t, e⟩ :
    Shared ι W)) = _
  rw [RwLock.release_grant_free]

/-- The cache without the entry, if the condition holds. -/
def without (condition : Bool) (key : CacheKey) (nonces : CacheKey → Option Nonce) :
    CacheKey → Option Nonce :=
  if condition = true then Function.update nonces key none else nonces

theorem without_without (c₁ c₂ : Bool) (key : CacheKey) (nonces : CacheKey → Option Nonce) :
    without c₂ key (without c₁ key nonces) = without (c₁ || c₂) key nonces := by
  cases c₁ <;> cases c₂ <;> simp [without]

theorem without_of_ne {k key : CacheKey} (hk : k ≠ key) (condition : Bool)
    (nonces : CacheKey → Option Nonce) : without condition key nonces k = nonces k := by
  cases condition with
  | true => exact Function.update_of_ne hk _ _
  | false => rfl

theorem invalidateCacheIf_ends (condition : Bool) (key : CacheKey) :
    Ends (machine w ep) t ans (invalidateCacheIf condition key) ⟨counters, nonces, .free, e⟩ ()
      ⟨counters, without condition key nonces, .free, e⟩ := by
  cases condition with
  | false => exact ends_pure _ _
  | true => exact Ends.bind (lockNonces_ends .write) (Ends.op rfl (dropGuard_ends .write))

theorem invalidateCacheFor_ends (key : CacheKey) (errs : List TxExecutionError) :
    Ends (machine w ep) t ans (invalidateCacheFor key errs) ⟨counters, nonces, .free, e⟩ ()
      ⟨counters, without (errs.any TxExecutionError.invalidCache) key nonces, .free, e⟩ := by
  induction errs generalizing nonces with
  | nil => exact ends_pure _ _
  | cons err errs ih =>
      rw [List.any_cons, ← without_without]
      exact Ends.bind (invalidateCacheIf_ends _ _) ih

/-- From a free lock, the call ends and leaves the cache as decided, and all else as it was. -/
theorem checkAndInvalidateCache_ends (key : CacheKey) (result : SendReply) :
    Ends (machine w ep) t ans (checkAndInvalidateCache key result) ⟨counters, nonces, .free, e⟩ ()
      ⟨counters, without (SendReply.invalidates result) key nonces, .free, e⟩ := by
  unfold SendReply.invalidates
  rw [← without_without]
  refine Ends.bind (invalidateCacheIf_ends _ _) ?_
  cases result with
  | error err => exact ends_pure _ _
  | ok response => exact invalidateCacheFor_ends key _

end alone

/-! ### The call among others -/

/-- The effects of an invalidation of the entry, which is removed only if so decided. -/
def Op.invalidates (key : CacheKey) (decision : Bool) : Op → Prop
  | .lockRequest _ => True
  | .lockAcquire _ => True
  | .guardDrop => True
  | .nonceRemove k => k = key ∧ decision = true
  | _ => False

/-- The state says whether the entry was removed. -/
abbrev removalProtocol (key : CacheKey) (decision : Bool) : Protocol Op Op.Reply where
  State := Bool
  next
    | _, .nonceRemove _, _ => true
    | removed, _, _ => removed
  allowed _ e := e.invalidates key decision
  mayPanic _ := False

section paths

variable (key : CacheKey) (decision removed : Bool)

theorem invalidateCacheIf_removal {condition : Bool} (h : condition = true → decision = true) :
    Follows (removalProtocol key decision) (fun _ m => m = (removed || condition)) removed
      (invalidateCacheIf condition key) := by
  cases condition with
  | false => exact (Bool.or_false removed).symm
  | true =>
      refine ⟨trivial, fun _ => ⟨trivial, fun _ => ⟨⟨rfl, h rfl⟩, fun _ => ⟨trivial, fun _ => ?_⟩⟩⟩⟩
      exact (Bool.or_true removed).symm

theorem invalidateCacheFor_removal {errs : List TxExecutionError}
    (h : errs.any TxExecutionError.invalidCache = true → decision = true) :
    Follows (removalProtocol key decision)
      (fun _ m => m = (removed || errs.any TxExecutionError.invalidCache)) removed
      (invalidateCacheFor key errs) := by
  induction errs generalizing removed with
  | nil => exact (Bool.or_false removed).symm
  | cons err errs ih =>
      rw [List.any_cons, Bool.or_eq_true] at h
      apply (invalidateCacheIf_removal key decision removed fun herr => h (.inl herr)).bind
      rintro _ m rfl
      apply (ih _ fun herrs => h (.inr herrs)).mono
      rintro _ m rfl
      rw [List.any_cons, Bool.or_assoc]

theorem checkAndInvalidateCache_removal (result : SendReply) :
    Follows (removalProtocol key (SendReply.invalidates result))
      (fun _ m => m = SendReply.invalidates result) false (checkAndInvalidateCache key result) := by
  have hreply : SendReply.invalidNonce result = true → SendReply.invalidates result = true := by
    intro h
    simp only [SendReply.invalidates, h, Bool.true_or]
  apply (invalidateCacheIf_removal key _ false hreply).bind
  rintro _ m rfl
  cases result with
  | error err => exact (Bool.or_false _).symm
  | ok response =>
      have herrs : (fetchTxErrs response).any TxExecutionError.invalidCache = true →
          SendReply.invalidates (.ok response) = true := by
        intro h
        simp only [SendReply.invalidates, h, Bool.or_true]
      exact invalidateCacheFor_removal key _ _ herrs

theorem removal_after {l : List (Act Op Op.Reply)}
    (h : ∀ a ∈ l, a.effect.invalidates key decision) :
    (removalProtocol key decision).after removed l = true ↔
      removed = true ∨ ⟨.nonceRemove key, ()⟩ ∈ l := by
  induction l generalizing removed with
  | nil => simp
  | cons a l ih =>
      obtain ⟨e, r⟩ := a
      have he := h _ List.mem_cons_self
      rw [Protocol.after_cons, ih _ fun b hb => h b (List.mem_cons_of_mem _ hb)]
      cases e with
      | nonceRemove k =>
          obtain rfl : k = key := he.1
          simp
      | _ => simp

end paths

/-- What becomes of the cache with an effect. -/
def Op.onNonces : Op → (CacheKey → Option Nonce) → CacheKey → Option Nonce
  | .nonceFetchAdd key, nonces => Function.update nonces key ((nonces key).map wrapSucc)
  | .nonceInsert key v, nonces => Function.update nonces key (some v)
  | .nonceRemove key, nonces => Function.update nonces key none
  | _, nonces => nonces

theorem perform_nonces {ι W A : Type} [DecidableEq ι] {w : ℕ} {ep : Endpoint W A} {t : ι} {e : Op}
    {ans : Option e.Reply} {r : e.Reply} {s s' : Shared ι W}
    (h : perform w ep t e ans s = some (r, s')) : s'.nonces = e.onNonces s.nonces := by
  cases e with
  | lockAcquire m =>
      obtain ⟨l, -, rfl⟩ := perform_lockAcquire h
      rfl
  | nonceFetchAdd key =>
      obtain ⟨hn, rfl⟩ := perform_nonceFetchAdd h
      simp [Op.onNonces, hn]
  | rpc call =>
      obtain ⟨e', -, rfl⟩ := perform_rpc h
      rfl
  | _ =>
      cases Option.some.inj h
      rfl

theorem Op.invalidates.onNonces {key : CacheKey} {decision : Bool} {e : Op}
    (h : e.invalidates key decision) (nonces : CacheKey → Option Nonce) :
    (∀ k, k ≠ key → e.onNonces nonces k = nonces k) ∧
      (decision = false → e.onNonces nonces = nonces) := by
  cases e with
  | nonceRemove k =>
      obtain ⟨rfl, hdecision⟩ := h
      refine ⟨fun k' hk' => Function.update_of_ne hk' _ _, fun hfalse => ?_⟩
      rw [hdecision] at hfalse
      cases hfalse
  | lockRequest mode => exact ⟨fun _ _ => rfl, fun _ => rfl⟩
  | lockAcquire mode => exact ⟨fun _ _ => rfl, fun _ => rfl⟩
  | guardDrop => exact ⟨fun _ _ => rfl, fun _ => rfl⟩
  | _ => exact h.elim

/-- Alone, `check_and_invalidate_cache` ends, removes the entry of the key exactly when the reply
reports an invalid nonce and leaves all others.  Among other tasks, none of its steps touches another
entry, or any if the reply reports no invalid nonce, and once it has returned it has removed the entry
exactly when the reply reports one. -/
theorem checkAndInvalidateCache_removes_iff {ι W A : Type} [DecidableEq ι] (w : ℕ)
    (ep : Endpoint W A) (key : CacheKey) (result : SendReply) :
    (∀ (t : ι) ans counters nonces e, ∃ nonces',
      Ends (machine w ep) t ans (checkAndInvalidateCache key result)
        ⟨counters, nonces, .free, e⟩ () ⟨counters, nonces', .free, e⟩ ∧
      (∀ k, k ≠ key → nonces' k = nonces k) ∧
      (ReportsInvalidNonce result → nonces' key = none) ∧
      (¬ ReportsInvalidNonce result → nonces' = nonces)) ∧
    ∀ (prog : ι → Task Unit) (t : ι), prog t = checkAndInvalidateCache key result →
      ∀ s₀ tr c, Run (machine w ep) (.start s₀ prog) tr c →
        (∀ e k ans r s, c.thread t = some (.op e k) → perform w ep t e ans c.shared = some (r, s) →
          (∀ k, k ≠ key → s.nonces k = c.shared.nonces k) ∧
          (¬ ReportsInvalidNonce result → s.nonces = c.shared.nonces)) ∧
        (c.thread t = some (.pure ()) →
          (⟨t, ⟨.nonceRemove key, ()⟩⟩ ∈ tr ↔ ReportsInvalidNonce result)) := by
  have hiff := invalidates_iff result
  constructor
  · intro t ans counters nonces e
    refine ⟨_, checkAndInvalidateCache_ends key result, fun k hk => without_of_ne hk _ _, ?_, ?_⟩
    · intro h
      rw [without, if_pos (hiff.mpr h), Function.update_self]
    · intro h
      rw [without, if_neg fun hdecided => h (hiff.mp hdecided)]
  · intro prog t hprog s₀ tr c h
    have hfol := checkAndInvalidateCache_removal key result
    have honly : Only (Op.invalidates key (SendReply.invalidates result)) (prog t) :=
      hprog ▸ hfol.only fun _ _ he => he
    constructor
    · intro e k ans r s ht hstep
      have he := (honly.leads (h.leads_of_thread ht)).2.1
      obtain ⟨hothers, hnone⟩ := he.onNonces c.shared.nonces
      rw [perform_nonces hstep]
      refine ⟨hothers, fun hreport => hnone ?_⟩
      exact Bool.eq_false_iff.mpr fun hdecided => hreport (hiff.mp hdecided)
    · intro hdone
      have hpath := h.leads_of_thread hdone
      have hacts := (honly.leads hpath).1
      rw [hprog] at hpath
      have hremoved : (removalProtocol key _).after false (acts t tr) = _ := (hfol.leads hpath).2
      rw [← mem_acts, ← hiff, ← hremoved, removal_after key _ false hacts]
      simp

end NearFetch
