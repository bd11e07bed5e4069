import NearFetch.BatchChains
import NearFetch.HandleNames
import NearFetch.Queries

/-! # Argument errors and the calls that follow them

`args`, `args_json` and `args_borsh` of the three builders write to the arguments of a `Function`:
`args` respects an error that is there, the other two do not (`ArgsCall.write`).  So the error of a
failed serialization is kept exactly when no later serialization succeeds.  A builder with an error
refuses to be sent, and one without it reaches a request or panics, whatever its signer does
(`transact_refuses_iff`), which is how `argErrors_kept_iff` compares the setters. -/

namespace NearFetch

open Effects DeferredErrors

/-! ### Tasks that refuse -/

/-- The protocol of a task that sends nothing and does not panic. -/
abbrev offlineProtocol : Protocol Op Op.Reply where
  State := Unit
  next _ _ _ := ()
  allowed _ e := e.isRpc = false
  mayPanic _ := False

/-- The task returns an error, and nothing is sent. -/
abbrev Refuses {α : Type} (p : Task (Result α)) : Prop :=
  Follows offlineProtocol (fun result _ => ∃ e, result = .error e) () p

theorem reply_nonempty (e : Op) : Nonempty e.Reply := by
  cases e with
  | rpc call => cases call <;> exact ⟨.error (.transportError "")⟩
  | _ => exact ⟨default⟩

section refuses

variable {α β : Type}

theorem rest_of_offline {Q : β → Unit → Prop} {p : Task α} {f : α → Task β}
    (h : Follows offlineProtocol Q () (p >>= f)) : ∃ a, Follows offlineProtocol Q () (f a) := by
  obtain ⟨a, _, ha⟩ := (follows_bind_iff.mp h).exists_value reply_nonempty fun _ hpanic => hpanic
  exact ⟨a, ha⟩

variable (cr : Crypto) (signer : SignerExt) (receiverId : AccountId) (actions : List Action)

theorem not_offline_fetchNonce {Q : Result (Nonce × CryptoHash × BlockHeight) → Unit → Prop}
    (accountId : AccountId) (publicKey : PublicKey) :
    ¬ Follows offlineProtocol Q () (fetchNonce accountId publicKey) := by
  intro h
  -- the entry is found, and the query for the block is not allowed
  have hblock := ((((h.2 ()).2 ()).2 true).2 0).1
  cases hblock

theorem not_offline_signTx {Q : Result SignedTransaction → Unit → Prop} :
    ¬ Follows offlineProtocol Q () (signTx cr signer receiverId actions) := by
  intro h
  obtain ⟨pk, h⟩ := rest_of_offline h
  obtain ⟨accountId, h⟩ := rest_of_offline h
  exact not_offline_fetchNonce accountId pk (follows_bind_iff.mp h)

theorem not_offline_sendWith {Q : Result α → Unit → Prop} (waitUntil : TxExecutionStatus)
    (invalidate : CacheKey → SendReply → Task Unit)
    (result : SignedTransaction → SendReply → Result α) :
    ¬ Follows offlineProtocol Q ()
      (sendWith cr signer receiverId actions waitUntil invalidate result) := by
  intro h
  obtain ⟨key, h⟩ := rest_of_offline h
  exact not_offline_signTx cr signer receiverId actions (follows_bind_iff.mp h)

theorem not_offline_sendTxOnce {Q : Result FinalExecutionOutcomeView → Unit → Prop}
    (waitUntil : TxExecutionStatus) :
    ¬ Follows offlineProtocol Q () (sendTxOnce cr signer receiverId actions waitUntil) := by
  rw [sendTxOnce_eq]
  exact not_offline_sendWith cr signer receiverId actions waitUntil _ _

theorem not_offline_sendTxAsync {Q : Result CryptoHash → Unit → Prop} :
    ¬ Follows offlineProtocol Q () (sendTxAsync cr signer receiverId actions) := by
  rw [sendTxAsync_eq]
  exact not_offline_sendWith cr signer receiverId actions .none _ _

end refuses

/-! ### Who refuses -/

section builders

variable (cr : Crypto)

theorem intoAction_error_iff (f : Function) :
    (∃ e, f.intoAction = .error e) ↔ ∃ e, f.args = .error e := by
  unfold Function.intoAction
  cases f.args <;> simp

theorem intoRequest_error_iff (v : ViewFunction) (block : BlockReference) :
    (∃ e, ProcessQuery.intoRequest v block = .error e) ↔ ∃ e, v.function.args = .error e := by
  obtain ⟨accountId, name, args, deposit, gas⟩ := v
  cases args <;> simp [ProcessQuery.intoRequest]

theorem transact_refuses_iff (t : FunctionCallTransaction) :
    Refuses (t.transact cr) ↔ ∃ e, t.function.args = .error e := by
  obtain ⟨signer, receiverId, ⟨name, args, deposit, gas⟩, strategy, waitUntil⟩ := t
  cases args with
  | error e =>
      refine iff_of_true ?_ ⟨e, rfl⟩
      exact ⟨e, rfl⟩
  | ok args =>
      refine iff_of_false ?_ (by simp)
      intro h
      have hattempts := follows_bind_iff.mp h
      cases strategy with
      | none => exact not_offline_sendTxOnce cr signer receiverId _ waitUntil hattempts
      | some strategy =>
          cases strategy with
          | nil => exact not_offline_sendTxOnce cr signer receiverId _ waitUntil hattempts
          | cons delay strategy =>
              have hattempt := follows_bind_iff.mp hattempts
              exact not_offline_sendTxOnce cr signer receiverId _ waitUntil hattempt

theorem transactAsync_refuses_iff (t : FunctionCallTransaction) :
    Refuses (t.transactAsync cr) ↔ ∃ e, t.function.args = .error e := by
  obtain ⟨signer, receiverId, ⟨name, args, deposit, gas⟩, strategy, waitUntil⟩ := t
  cases args with
  | error e =>
      refine iff_of_true ?_ ⟨e, rfl⟩
      exact ⟨e, rfl⟩
  | ok args =>
      refine iff_of_false ?_ (by simp)
      intro h
      exact not_offline_sendTxAsync cr signer receiverId _ (follows_bind_iff.mp h)

theorem view_refuses_iff (q : Query ViewFunction) :
    Refuses q.intoFuture ↔ ∃ e, q.method.function.args = .error e := by
  obtain ⟨⟨accountId, name, args, deposit, gas⟩, blockRef⟩ := q
  cases args with
  | error e =>
      refine iff_of_true ?_ ⟨e, rfl⟩
      exact ⟨e, rfl⟩
  | ok args =>
      refine iff_of_false ?_ (by simp)
      intro h
      cases h.1

end builders

/-! ### Chains of setters -/

/-- A call that sets the arguments, given what the serialization makes of them. -/
inductive ArgsCall where
  | args (bytes : List UInt8)
  | argsJson (serialized : Except String (List UInt8))
  | argsBorsh (serialized : Except String (List UInt8))

namespace ArgsCall

/-- The function after the call. -/
def onFunction (f : Function) : ArgsCall → Function
  | .args bytes => f.setArgs bytes
  | .argsJson serialized => f.argsJson serialized
  | .argsBorsh serialized => f.argsBorsh serialized

/-- The function call transaction after the call. -/
def onTransaction (t : FunctionCallTransaction) : ArgsCall → FunctionCallTransaction
  | .args bytes => t.setArgs bytes
  | .argsJson serialized => t.argsJson serialized
  | .argsBorsh serialized => t.argsBorsh serialized

/-- The query after the call. -/
def onView (q : Query ViewFunction) : ArgsCall → Query ViewFunction
  | .args bytes => q.setArgs bytes
  | .argsJson serialized => q.argsJson serialized
  | .argsBorsh serialized => q.argsBorsh serialized

/-- The result of the serialization, if the call serializes. -/
def serialized : ArgsCall → Option (Result (List UInt8))
  | .args _ => none
  | .argsJson serialized => some (serialized.mapError .serialization)
  | .argsBorsh serialized => some (serialized.mapError .io)

/-- What the call does to the arguments. -/
def write : ArgsCall → Write Error (List UInt8)
  | .args bytes => .unlessError bytes
  | .argsJson serialized => .always (serialized.mapError .serialization)
  | .argsBorsh serialized => .always (serialized.mapError .io)

end ArgsCall

/-- The serializations of the calls, in call order. -/
def serializations (calls : List ArgsCall) : List (Result (List UInt8)) :=
  calls.filterMap ArgsCall.serialized

/-- Some serialization failed. -/
def SomeFailed (calls : List ArgsCall) : Prop := ∃ e, .error e ∈ serializations calls

/-- The last serialization failed. -/
def LastFailed (calls : List ArgsCall) : Prop :=
  ∃ e, (serializations calls).getLast? = some (.error e)

section chain

variable (calls : List ArgsCall)

theorem onFunction_args (f : Function) (c : ArgsCall) :
    (c.onFunction f).args = write f.args c.write := by
  cases c with
  | args bytes =>
      simp only [ArgsCall.onFunction, Function.setArgs]
      cases h : f.args with
      | error e => exact h
      | ok args => rfl
  | argsJson serialized =>
      simp only [ArgsCall.onFunction, Function.argsJson]
      cases serialized <;> cases f.args <;> rfl
  | argsBorsh serialized =>
      simp only [ArgsCall.onFunction, Function.argsBorsh]
      cases serialized <;> cases f.args <;> rfl

theorem foldl_onFunction_args (f : Function) :
    (calls.foldl ArgsCall.onFunction f).args = (calls.map ArgsCall.write).foldl write f.args := by
  induction calls generalizing f with
  | nil => rfl
  | cons c calls ih => rw [List.foldl_cons, ih, onFunction_args, List.map_cons, List.foldl_cons]

theorem foldl_onTransaction (t : FunctionCallTransaction) :
    (calls.foldl ArgsCall.onTransaction t).function = calls.foldl ArgsCall.onFunction t.function := by
  induction calls generalizing t with
  | nil => rfl
  | cons c calls ih =>
      rw [List.foldl_cons, ih, List.foldl_cons]
      cases c <;> rfl

theorem foldl_onView (q : Query ViewFunction) :
    (calls.foldl ArgsCall.onView q).method.function =
      calls.foldl ArgsCall.onFunction q.method.function := by
  induction calls generalizing q with
  | nil => rfl
  | cons c calls ih =>
      rw [List.foldl_cons, ih, List.foldl_cons]
      cases c <;> rfl

theorem overwrites_write : (calls.map ArgsCall.write).filterMap Write.overwrites =
    serializations calls := by
  rw [List.filterMap_map]
  apply List.filterMap_congr
  intro c _
  cases c <;> rfl

/-- Once a serialization has failed, the error is there exactly when the last one failed. -/
theorem args_error_iff {f : Function} (h : SomeFailed calls) :
    (∃ e, (calls.foldl ArgsCall.onFunction f).args = .error e) ↔ LastFailed calls := by
  rw [foldl_onFunction_args, foldl_write_error_iff, overwrites_write]
  obtain ⟨e, he⟩ := h
  have hlast := List.getLast?_eq_some_getLast (List.ne_nil_of_mem he)
  simp only [LastFailed, hlast, Option.getD_some, Option.some.injEq]

theorem kept_iff {f : Function} {P : Prop}
    (hP : P ↔ ∃ e, (calls.foldl ArgsCall.onFunction f).args = .error e) :
    (SomeFailed calls → P) ↔ ¬ SomeFailed calls ∨ LastFailed calls := by
  rw [hP, ← imp_iff_not_or]
  exact imp_congr_right fun h => args_error_iff calls h

end chain

/-- Of a function, a function call transaction and a view, after calls in which some serialization
failed, each is refused exactly when the last serialization failed. -/
theorem argErrors_kept_iff (cr : Crypto) (calls : List ArgsCall) (f : Function)
    (t : FunctionCallTransaction) (q : Query ViewFunction) :
    ((SomeFailed calls → ∃ e, (calls.foldl ArgsCall.onFunction f).intoAction = .error e) ↔
      ¬ SomeFailed calls ∨ LastFailed calls) ∧
    ((SomeFailed calls → Refuses ((calls.foldl ArgsCall.onTransaction t).transact cr)) ↔
      ¬ SomeFailed calls ∨ LastFailed calls) ∧
    ((SomeFailed calls → Refuses ((calls.foldl ArgsCall.onTransaction t).transactAsync cr)) ↔
      ¬ SomeFailed calls ∨ LastFailed calls) ∧
    (∀ block, (SomeFailed calls → ∃ e, ProcessQuery.intoRequest
        (calls.foldl ArgsCall.onView q).method block = .error e) ↔
      ¬ SomeFailed calls ∨ LastFailed calls) ∧
    ((SomeFailed calls → Refuses (calls.foldl ArgsCall.onView q).intoFuture) ↔
      ¬ SomeFailed calls ∨ LastFailed calls) := by
  refine ⟨?_, ?_, ?_, ?_, ?_⟩
  · exact kept_iff calls (intoAction_error_iff _)
  · apply kept_iff calls (f := t.function)
    rw [transact_refuses_iff, foldl_onTransaction]
  · apply kept_iff calls (f := t.function)
    rw [transactAsync_refuses_iff, foldl_onTransaction]
  · intro block
    apply kept_iff calls (f := q.method.function)
    rw [intoRequest_error_iff, foldl_onView]
  · apply kept_iff calls (f := q.method.function)
    rw [view_refuses_iff, foldl_onView]

/-! ### An error that is lost -/

section lost

/-- Two sets of arguments, the first of which has no JSON form. -/
def secondThoughts : List ArgsCall :=
  [.argsJson (.error "key must be a string"), .argsJson (.ok [123, 125])]

/-- Alice's call of a contract, with the second of the arguments. -/
def forgetfulCall : FunctionCallTransaction :=
  secondThoughts.foldl ArgsCall.onTransaction
    (call (payer.ext .transparent) ⟨"registry.near"⟩ "register")

theorem forgetfulCall_returns :
    ∃ l h, Returns (forgetfulCall.transactAsync .transparent) l (.ok h) := by
  have hexec : ∃ tr c, (machine 64 anyEndpoint).exec []
      (.start aloneWith fun _ => forgetfulCall.transactAsync .transparent)
      (List.replicate 12 (.act () acceptingReplies)) = some (tr, c) ∧
      c.thread () = some (.pure (.ok ⟨⟨"registry.near"⟩, ⟨[1, 1]⟩⟩)) :=
    ⟨_, _, rfl, rfl⟩
  obtain ⟨tr, c, hexec, hthread⟩ := hexec
  exact ⟨acts () tr, _, (Run.start.exec hexec).leads_of_thread hthread⟩

/-- The first serialization fails, and the transaction is sent with the second arguments. -/
theorem argsJson_forgets :
    SomeFailed secondThoughts ∧
    (secondThoughts.foldl ArgsCall.onFunction (.new "register")).intoAction =
      .ok ⟨"register", [123, 125], defaultCallFnGas, defaultCallDeposit⟩ ∧
    (∃ l h stx, Returns (forgetfulCall.transactAsync .transparent) l (.ok h) ∧
      submissions l = [stx] ∧ stx.transaction.actions =
        [.functionCall ⟨"register", [123, 125], defaultCallFnGas, defaultCallDeposit⟩]) ∧
    ProcessQuery.intoRequest (secondThoughts.foldl ArgsCall.onView
        (view ⟨"registry.near"⟩ "register")).method .latest =
      .ok ⟨.latest, .callFunction ⟨"registry.near"⟩ "register" [123, 125]⟩ := by
  refine ⟨⟨_, List.mem_cons_self⟩, rfl, ?_, rfl⟩
  obtain ⟨l, h, hret⟩ := forgetfulCall_returns
  have hasync := (functionCall_submitsAs .transparent forgetfulCall).transactAsync
  have honce : SubmitsOnce forgetfulCall.receiverId _ (forgetfulCall.batch.transactAsync _) :=
    transactAsync_submitsOnce .transparent (t := forgetfulCall.batch) rfl
  rw [hasync] at hret
  obtain ⟨stx, hstx, hcarries⟩ := honce.succeeds hret
  exact ⟨l, h, stx, hasync ▸ hret, hstx, hcarries.actions⟩

end lost

end NearFetch
