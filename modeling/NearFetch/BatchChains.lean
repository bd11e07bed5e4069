import NearFetch.CalmTasks
import NearFetch.DeferredErrors

/-! # Chains of calls on a batch builder

Every call on a batch builder sets an option or stands for one action, which a `Function` with an
argument error does not have (`BatchCall.action`).  A chain of calls pushes the actions one after
another, so the builder holds all of them in call order, or the last error
(`built_actions`).  The two ways to submit the builder are then compared with what is to be sent:
a task that `SubmitsOnce` submits at most one transaction, with the given actions and no others, and
ends without one only with the error of a query that failed. -/

namespace NearFetch

open Effects DeferredErrors

/-- A call on a batch builder. -/
inductive BatchCall where
  | createAccount
  | addKey (pk : PublicKey) (ak : AccessKey)
  | deleteKey (pk : PublicKey)
  | deleteAccount (beneficiaryId : AccountId)
  | deploy (code : List UInt8)
  | stake (amount : NearToken) (pk : PublicKey)
  | transfer (deposit : NearToken)
  | call (function : Function)
  | retry (strategy : List ℕ)
  | retryExponential (baseMillis maxRetries : ℕ) (jitter : ℕ → ℕ → ℕ)
  | waitUntil (level : TxExecutionStatus)

namespace BatchCall

/-- The builder after the call. -/
def on (t : BatchTransaction) : BatchCall → BatchTransaction
  | .createAccount => t.createAccount
  | .addKey pk ak => t.addKey pk ak
  | .deleteKey pk => t.deleteKey pk
  | .deleteAccount beneficiaryId => t.deleteAccount beneficiaryId
  | .deploy code => t.deploy code
  | .stake amount pk => t.stake amount pk
  | .transfer deposit => t.transfer deposit
  | .call function => t.call function
  | .retry strategy => t.retry strategy
  | .retryExponential baseMillis maxRetries jitter => t.retryExponential baseMillis maxRetries jitter
  | .waitUntil level => t.setWaitUntil level

/-- The action that the call stands for, or the error of its arguments. -/
def action : BatchCall → Option (Result Action)
  | .createAccount => some (.ok .createAccount)
  | .addKey pk ak => some (.ok (.addKey pk ak))
  | .deleteKey pk => some (.ok (.deleteKey pk))
  | .deleteAccount beneficiaryId => some (.ok (.deleteAccount beneficiaryId))
  | .deploy code => some (.ok (.deployContract code))
  | .stake amount pk => some (.ok (.stake amount pk))
  | .transfer deposit => some (.ok (.transfer deposit))
  | .call function => some (function.args.map fun args => .functionCall
      { methodName := function.name, args, gas := function.gas, deposit := function.deposit })
  | .retry _ => none
  | .retryExponential _ _ _ => none
  | .waitUntil _ => none

end BatchCall

/-- The actions of the calls, in call order. -/
def actionsOf (calls : List BatchCall) : List Action := values (calls.filterMap BatchCall.action)

/-- The argument errors of the calls, in call order. -/
def argErrors (calls : List BatchCall) : List Error := errors (calls.filterMap BatchCall.action)

/-- `Client::batch` and the calls after it. -/
def built (signer : SignerExt) (receiverId : AccountId) (calls : List BatchCall) :
    BatchTransaction :=
  calls.foldl BatchCall.on (batch signer receiverId)

/-! ### What the builder holds -/

section builder

variable (t : BatchTransaction)

theorem push_actions (action : Action) :
    (t.push action).actions = DeferredErrors.push t.actions (.ok action) := by
  unfold BatchTransaction.push
  cases h : t.actions with
  | error err => exact h
  | ok actions => rfl

theorem call_actions (function : Function) :
    (t.call function).actions = DeferredErrors.push t.actions (function.args.map fun args =>
      .functionCall { methodName := function.name, args, gas := function.gas,
                      deposit := function.deposit }) := by
  unfold BatchTransaction.call
  cases function.args with
  | error err => cases t.actions <;> rfl
  | ok args => exact push_actions t _

theorem on_actions (c : BatchCall) :
    (c.on t).actions = c.action.toList.foldl DeferredErrors.push t.actions := by
  cases c with
  | createAccount => exact push_actions t _
  | addKey pk ak => exact push_actions t _
  | deleteKey pk => exact push_actions t _
  | deleteAccount beneficiaryId => exact push_actions t _
  | deploy code => exact push_actions t _
  | stake amount pk => exact push_actions t _
  | transfer deposit => exact push_actions t _
  | call function => exact call_actions t function
  | retry strategy => rfl
  | retryExponential baseMillis maxRetries jitter => rfl
  | waitUntil level => rfl

theorem push_sends (action : Action) :
    (t.push action).signer = t.signer ∧ (t.push action).receiverId = t.receiverId := by
  unfold BatchTransaction.push
  cases t.actions <;> exact ⟨rfl, rfl⟩

theorem on_sends (c : BatchCall) :
    (c.on t).signer = t.signer ∧ (c.on t).receiverId = t.receiverId := by
  cases c with
  | call function =>
      simp only [BatchCall.on, BatchTransaction.call]
      cases function.args with
      | error err => exact ⟨rfl, rfl⟩
      | ok args => exact push_sends t _
  | retry strategy => exact ⟨rfl, rfl⟩
  | retryExponential baseMillis maxRetries jitter => exact ⟨rfl, rfl⟩
  | waitUntil level => exact ⟨rfl, rfl⟩
  | _ => exact push_sends t _

theorem foldl_on_actions (calls : List BatchCall) :
    (calls.foldl BatchCall.on t).actions =
      (calls.filterMap BatchCall.action).foldl DeferredErrors.push t.actions := by
  induction calls generalizing t with
  | nil => rfl
  | cons c calls ih =>
      rw [List.foldl_cons, ih, on_actions, ← List.foldl_append]
      cases h : c.action <;> simp [h]

theorem foldl_on_sends (calls : List BatchCall) :
    (calls.foldl BatchCall.on t).signer = t.signer ∧
      (calls.foldl BatchCall.on t).receiverId = t.receiverId := by
  induction calls generalizing t with
  | nil => exact ⟨rfl, rfl⟩
  | cons c calls ih =>
      obtain ⟨hsigner, hreceiver⟩ := on_sends t c
      rw [List.foldl_cons, (ih _).1, (ih _).2]
      exact ⟨hsigner, hreceiver⟩

end builder

section chain

variable (signer : SignerExt) (receiverId : AccountId) {calls : List BatchCall}

theorem built_actions (h : argErrors calls = []) :
    (built signer receiverId calls).actions = .ok (actionsOf calls) :=
  (foldl_on_actions _ calls).trans (foldl_push_ok h [])

theorem built_error {e : Error} (h : (argErrors calls).getLast? = some e) :
    (built signer receiverId calls).actions = .error e :=
  (foldl_on_actions _ calls).trans (foldl_push_error h _)

end chain

/-! ### What one attempt submits -/

/-- The transaction goes to the receiver and holds the actions, in their order. -/
structure Carries (receiverId : AccountId) (actions : List Action) (stx : SignedTransaction) :
    Prop where
  receiver : stx.transaction.receiverId = receiverId
  actions : stx.transaction.actions = actions

/-- Nothing or one such transaction. -/
def Sole (receiverId : AccountId) (actions : List Action) (m : List SignedTransaction) : Prop :=
  m = [] ∨ ∃ stx, m = [stx] ∧ Carries receiverId actions stx

/-- The protocol of a task that submits at most one such transaction. -/
abbrev soleProtocol (receiverId : AccountId) (actions : List Action) :
    Protocol Op Op.Reply where
  State := List SignedTransaction
  next m e _ := m ++ e.submission.toList
  allowed m e := Sole receiverId actions (m ++ e.submission.toList)
  mayPanic _ := True

/-- What is made of a failed query for a block or for an access key. -/
def queryError : Act Op Op.Reply → Option Error
  | ⟨.rpc (.block _), .error err⟩ => some (.rpc (.block err))
  | ⟨.rpc (.query _ _), .error err⟩ => some (.rpcQueryError err)
  | ⟨.rpc (.query _ _), .ok ⟨.accessKey _, _, _⟩⟩ => none
  | ⟨.rpc (.query _ _), .ok _⟩ => some (.rpcReturnedInvalidData "while querying access key")
  | _ => none

/-- Wherever the task is, it has submitted nothing or one transaction, to the receiver and with these
actions.  It has submitted one when it returns, unless that is with the error of a query that
failed. -/
structure SubmitsOnce {α : Type} (receiverId : AccountId) (actions : List Action)
    (p : Task (Result α)) : Prop where
  sole : ∀ l q, Leads p l q → Sole receiverId actions (submissions l)
  submits : ∀ l result, Returns p l result →
    (∃ stx, submissions l = [stx] ∧ Carries receiverId actions stx) ∨
    submissions l = [] ∧ ∃ err, result = .error err ∧ ∃ a ∈ l, queryError a = some err

/-! #### Failed queries -/

/-- The last failed query decides on the error. -/
abbrev queryProtocol : Protocol Op Op.Reply where
  State := Option Error
  next m e r := (queryError ⟨e, r⟩).or m
  allowed _ _ := True
  mayPanic _ := True

/-- An error is the one in the state. -/
def Failed {α : Type} (result : Result α) (m : Option Error) : Prop :=
  ∀ err, result = .error err → m = some err

section failed

theorem failed_ok {α : Type} (a : α) (m : Option Error) : Failed (.ok a : Result α) m :=
  fun _ h => nomatch h

theorem failed_error {α : Type} (err : Error) : Failed (.error err : Result α) (some err) := by
  rintro _ ⟨⟩
  rfl

theorem query_after {l : List (Act Op Op.Reply)} {m : Option Error} {err : Error}
    (h : queryProtocol.after m l = some err) : m = some err ∨ ∃ a ∈ l, queryError a = some err := by
  induction l generalizing m with
  | nil => exact .inl h
  | cons a l ih =>
      rcases ih h with hnext | ⟨b, hb, herr⟩
      · rcases Option.or_eq_some_iff.mp hnext with herr | ⟨-, hm⟩
        · exact .inr ⟨a, List.mem_cons_self, herr⟩
        · exact .inl hm
      · exact .inr ⟨b, List.mem_cons_of_mem a hb, herr⟩

theorem query_unmoved : Unmoved queryProtocol where
  allowed _ _ _ := trivial
  next _ e _ he := by cases e <;> first | rfl | cases he

theorem fetchNonce_failed (accountId : AccountId) (publicKey : PublicKey) :
    Follows queryProtocol Failed none (fetchNonce accountId publicKey) := by
  apply fetchNonce_frame query_unmoved
  · refine ⟨trivial, fun n => ⟨trivial, fun reply => ?_⟩⟩
    cases reply with
    | error err => exact failed_error _
    | ok block => exact failed_ok _ _
  · refine ⟨trivial, fun reply => ?_⟩
    cases reply with
    | error err => exact failed_error _
    | ok resp =>
        obtain ⟨kind, blockHash, blockHeight⟩ := resp
        cases kind with
        | accessKey view => exact ⟨trivial, failed_ok _ _⟩
        | _ => exact failed_error _

variable (cr : Crypto) (signer : SignerExt) (receiverId : AccountId) (actions : List Action)

theorem signTx_failed {l : List (Act Op Op.Reply)} {err : Error}
    (h : Returns (signTx cr signer receiverId actions) l (.error err)) :
    ∃ a ∈ l, queryError a = some err := by
  obtain ⟨pk, l₁, m₁, rfl, -, h⟩ := returns_bind.mp h
  obtain ⟨accountId, l₂, m₂, rfl, -, h⟩ := returns_bind.mp h
  obtain ⟨result, l₃, m₃, rfl, hfetch, h⟩ := returns_bind.mp h
  cases result with
  | error err' =>
      obtain ⟨rfl, herr⟩ := returns_pure.mp h
      cases herr
      have hafter := ((fetchNonce_failed accountId pk).leads hfetch).2 err rfl
      rcases query_after hafter with hnone | ⟨a, ha, herr⟩
      · cases hnone
      · exact ⟨a, by simp [ha], herr⟩
  | ok x =>
      obtain ⟨signerId, l₄, m₄, rfl, -, h⟩ := returns_bind.mp h
      obtain ⟨signature, l₅, m₅, rfl, -, h⟩ := returns_bind.mp h
      cases (returns_pure.mp h).2

/-- Sending returns without a submission only if signing failed. -/
theorem sendWith_submits {α : Type} {waitUntil : TxExecutionStatus}
    {invalidate : CacheKey → SendReply → Task Unit}
    {result : SignedTransaction → SendReply → Result α} {l : List (Act Op Op.Reply)} {res : Result α}
    (h : Returns (sendWith cr signer receiverId actions waitUntil invalidate result) l res)
    (hnone : submissions l = []) : ∃ err, res = .error err ∧ ∃ a ∈ l, queryError a = some err := by
  obtain ⟨key, l₁, m₁, rfl, -, h⟩ := returns_bind.mp h
  obtain ⟨signed, l₂, m₂, rfl, hsign, h⟩ := returns_bind.mp h
  cases signed with
  | error err =>
      obtain ⟨rfl, rfl⟩ := returns_pure.mp h
      obtain ⟨a, ha, herr⟩ := signTx_failed cr signer receiverId actions hsign
      exact ⟨err, rfl, a, by simp [ha], herr⟩
  | ok stx =>
      obtain ⟨reply, m₃, rfl, -⟩ := returns_effect.mp h
      simp at hnone

end failed

/-! #### Submissions -/

section attempt

variable {α : Type} {receiverId : AccountId} {actions : List Action}

theorem sole_after (m : List SignedTransaction) (l : List (Act Op Op.Reply)) :
    (soleProtocol receiverId actions).after m l = m ++ submissions l := by
  induction l generalizing m with
  | nil => exact (List.append_nil m).symm
  | cons a l ih =>
      have hsub : submissions (a :: l) = a.effect.submission.toList ++ submissions l := by
        unfold submissions
        cases h : a.effect.submission <;> simp [h]
      rw [Protocol.after_cons, ih, hsub, List.append_assoc]

theorem sole_obeys {m : List SignedTransaction} {l : List (Act Op Op.Reply)}
    (hm : Sole receiverId actions m) (h : (soleProtocol receiverId actions).Obeys m l) :
    Sole receiverId actions ((soleProtocol receiverId actions).after m l) := by
  induction l generalizing m with
  | nil => exact hm
  | cons a l ih => exact ih h.1 h.2

theorem submitsOnce_of_follows {p : Task (Result α)} {Q : Result α → List SignedTransaction → Prop}
    (hp : Follows (soleProtocol receiverId actions) Q [] p)
    (hunsent : ∀ l result, Returns p l result → submissions l = [] →
      ∃ err, result = .error err ∧ ∃ a ∈ l, queryError a = some err) :
    SubmitsOnce receiverId actions p := by
  have hsole : ∀ l q, Leads p l q → Sole receiverId actions (submissions l) := by
    intro l q hl
    have h := sole_obeys (.inl rfl) (hp.leads hl).1
    rwa [sole_after, List.nil_append] at h
  refine ⟨hsole, fun l result hret => ?_⟩
  rcases hsole l _ hret with hnone | hone
  · exact .inr ⟨hnone, hunsent l result hret hnone⟩
  · exact .inl hone

theorem SubmitsOnce.succeeds {p : Task (Result α)} (hp : SubmitsOnce receiverId actions p)
    {l : List (Act Op Op.Reply)} {a : α} (hret : Returns p l (.ok a)) :
    ∃ stx, submissions l = [stx] ∧ Carries receiverId actions stx := by
  rcases hp.submits l _ hret with hone | ⟨-, err, herr, -⟩
  · exact hone
  · cases herr

theorem Silent.sole {m : List SignedTransaction} (hm : Sole receiverId actions m) {p : Task α}
    (hp : Silent p) :
    Follows (soleProtocol receiverId actions) (fun _ m' => m' = m) m p := by
  refine Only.follows ?_ trivial hp
  intro e he
  simp only [he, Option.toList_none, List.append_nil]
  exact ⟨hm, fun _ => trivial⟩

variable (cr : Crypto) (signer : SignerExt)

/-- Nothing is submitted while the transaction is signed, and it is signed as asked. -/
theorem signTx_sole : Follows (soleProtocol receiverId actions)
    (fun result m => m = [] ∧ ∀ stx, result = .ok stx → Carries receiverId actions stx) []
    (signTx cr signer receiverId actions) := by
  apply ((signTx_silent cr signer receiverId actions).sole (.inl rfl)).and_returns
  rintro l result hret stx rfl
  obtain ⟨hreceiver, hactions, -⟩ := signTx_returns cr signer receiverId actions hret
  exact ⟨hreceiver, hactions⟩

theorem sole_singleton {stx : SignedTransaction} (h : Carries receiverId actions stx) :
    Sole receiverId actions [stx] := .inr ⟨stx, rfl, h⟩

/-- Both ways to send submit one transaction, if the key, the nonce and the signature do not fail. -/
theorem sendWith_sole (waitUntil : TxExecutionStatus)
    {invalidate : CacheKey → SendReply → Task Unit} (hinvalidate : Invalidates invalidate)
    (result : SignedTransaction → SendReply → Result α) :
    Follows (soleProtocol receiverId actions) (fun _ _ => True) []
      (sendWith cr signer receiverId actions waitUntil invalidate result) := by
  apply sendWith_frame (K := fun _ m => m = [])
    (S := fun _ signed m => m = [] ∧ ∀ stx, signed = .ok stx → Carries receiverId actions stx)
  · exact (readKey_offline signer).silent.sole (.inl rfl)
  · rintro key _ rfl
    exact signTx_sole cr signer
  · intro key err m _
    trivial
  · rintro key stx _ ⟨rfl, hsigned⟩
    have hsole := sole_singleton (hsigned stx rfl)
    refine ⟨hsole, fun reply => ?_⟩
    exact ((hinvalidate.offline key reply).silent.sole hsole).mono fun _ _ _ => trivial

theorem sendWith_submitsOnce (waitUntil : TxExecutionStatus)
    {invalidate : CacheKey → SendReply → Task Unit} (hinvalidate : Invalidates invalidate)
    (result : SignedTransaction → SendReply → Result α) :
    SubmitsOnce receiverId actions
      (sendWith cr signer receiverId actions waitUntil invalidate result) :=
  submitsOnce_of_follows (sendWith_sole cr signer waitUntil hinvalidate result)
    fun _ _ hret => sendWith_submits cr signer receiverId actions hret

theorem sendTxOnce_submitsOnce (waitUntil : TxExecutionStatus) :
    SubmitsOnce receiverId actions (sendTxOnce cr signer receiverId actions waitUntil) := by
  rw [sendTxOnce_eq]
  exact sendWith_submitsOnce cr signer waitUntil checkAndInvalidateCache_invalidates _

theorem sendTxAsync_submitsOnce :
    SubmitsOnce receiverId actions (sendTxAsync cr signer receiverId actions) := by
  rw [sendTxAsync_eq]
  exact sendWith_submitsOnce cr signer .none (invalidateCacheIf_invalidates _) _

theorem sendTxOnce_calm (waitUntil : TxExecutionStatus) (hs : signer.Reliable) :
    Calm (sendTxOnce cr signer receiverId actions waitUntil) := by
  rw [sendTxOnce_eq]
  exact sendWith_calm hs checkAndInvalidateCache_invalidates _

theorem sendTxAsync_calm (hs : signer.Reliable) :
    Calm (sendTxAsync cr signer receiverId actions) := by
  rw [sendTxAsync_eq]
  exact sendWith_calm hs (invalidateCacheIf_invalidates _) _

theorem Sole.carries {m : List SignedTransaction} {stx : SignedTransaction}
    (h : Sole receiverId actions (m ++ [stx])) : Carries receiverId actions stx := by
  rcases h with h | ⟨stx', h, hcarries⟩
  · exact absurd h (List.append_ne_nil_of_right_ne_nil m (List.cons_ne_nil stx []))
  · have happend : m ++ [stx] = [] ++ [stx'] := h
    obtain ⟨-, hlast⟩ := List.append_inj' happend rfl
    rwa [(List.cons.inj hlast).1]

/-- The effect submits nothing but such transactions. -/
def Op.Submits (receiverId : AccountId) (actions : List Action) (e : Op) : Prop :=
  ∀ stx, e.submission = some stx → Carries receiverId actions stx

theorem sendTxOnce_submits (waitUntil : TxExecutionStatus) :
    Only (Op.Submits receiverId actions) (sendTxOnce cr signer receiverId actions waitUntil) := by
  rw [sendTxOnce_eq]
  apply (sendWith_sole cr signer waitUntil checkAndInvalidateCache_invalidates _).only
  intro m e hallowed stx hstx
  have hsole : Sole receiverId actions (m ++ e.submission.toList) := hallowed
  rw [hstx] at hsole
  exact hsole.carries

theorem retryStart_only {A : Op → Prop} (hsleep : ∀ delay, A (.sleep delay))
    {action : Task (Result α)} (haction : Only A action) (strategy : List ℕ) :
    Only A (retryStart strategy action) := by
  induction strategy with
  | nil => exact haction
  | cons delay strategy ih =>
      refine haction.bind fun result => ?_
      cases result with
      | ok a => trivial
      | error err => exact ⟨hsleep delay, fun _ => ih⟩

end attempt

/-! ### What the builder submits -/

/-- `transact` makes attempts that submit the actions, one transaction each, and `transact_async`
submits them so; neither panics if the signer does not. -/
structure Submits (cr : Crypto) (t : BatchTransaction) (signer : SignerExt)
    (receiverId : AccountId) (actions : List Action) : Prop where
  attempts : t.transact cr = retryStart (t.retryStrategy.getD [])
    (sendTxOnce cr signer receiverId actions t.waitUntil)
  attempt : SubmitsOnce receiverId actions (sendTxOnce cr signer receiverId actions t.waitUntil)
  transact : ∀ l q, Leads (t.transact cr) l q →
    ∀ stx ∈ submissions l, Carries receiverId actions stx
  transactAsync : SubmitsOnce receiverId actions (t.transactAsync cr)
  calm : signer.Reliable →
    Calm (sendTxOnce cr signer receiverId actions t.waitUntil) ∧ Calm (t.transactAsync cr)

/-- Both ways to submit the builder return the error and have no effect. -/
structure Fails (cr : Crypto) (t : BatchTransaction) (e : Error) : Prop where
  transact : t.transact cr = return .error e
  transactAsync : t.transactAsync cr = return .error e

section submits

variable (cr : Crypto) {t : BatchTransaction}

theorem transact_eq {actions : List Action} (h : t.actions = .ok actions) :
    t.transact cr = retryStart (t.retryStrategy.getD [])
      (sendTxOnce cr t.signer t.receiverId actions t.waitUntil) := by
  simp only [BatchTransaction.transact, RetryableTransaction.intoFuture, h]
  cases t.retryStrategy <;> rfl

theorem transactAsync_eq {actions : List Action} (h : t.actions = .ok actions) :
    t.transactAsync cr = (do
      let result ← sendTxAsync cr t.signer t.receiverId actions
      return result.map fun hash => ⟨t.receiverId, hash⟩) := by
  simp only [BatchTransaction.transactAsync, h]
  refine bind_congr fun result => ?_
  cases result <;> rfl

theorem SubmitsOnce.map {α β : Type} {receiverId : AccountId} {actions : List Action}
    {p : Task (Result α)} (hp : SubmitsOnce receiverId actions p) (f : α → β) :
    SubmitsOnce receiverId actions (do let result ← p; return result.map f) where
  sole l q hl := by
    rcases leads_bind hl with ⟨p', rfl, hp'⟩ | ⟨result, l₁, l₂, rfl, hret, hrest⟩
    · exact hp.sole l p' hp'
    · cases hrest
      rw [List.append_nil]
      exact hp.sole l₁ _ hret
  submits l result hret := by
    obtain ⟨res, l₁, l₂, rfl, hp', hrest⟩ := returns_bind.mp hret
    obtain ⟨rfl, rfl⟩ := returns_pure.mp hrest
    rw [List.append_nil]
    rcases hp.submits l₁ res hp' with hone | ⟨hnone, err, rfl, hquery⟩
    · exact .inl hone
    · exact .inr ⟨hnone, err, rfl, hquery⟩

theorem transactAsync_submitsOnce {actions : List Action} (h : t.actions = .ok actions) :
    SubmitsOnce t.receiverId actions (t.transactAsync cr) := by
  rw [transactAsync_eq cr h]
  exact (sendTxAsync_submitsOnce cr t.signer).map _

theorem transactAsync_calm {actions : List Action} (h : t.actions = .ok actions)
    (hs : t.signer.Reliable) : Calm (t.transactAsync cr) := by
  rw [transactAsync_eq cr h]
  exact (sendTxAsync_calm cr t.signer hs).bind fun _ => calm_pure _

theorem submits_of_actions {actions : List Action} (h : t.actions = .ok actions) :
    Submits cr t t.signer t.receiverId actions where
  attempts := transact_eq cr h
  attempt := sendTxOnce_submitsOnce cr t.signer t.waitUntil
  transact l q hl stx hstx := by
    have honly : Only (Op.Submits t.receiverId actions) (t.transact cr) := by
      rw [transact_eq cr h]
      exact retryStart_only (fun _ _ hsleep => nomatch hsleep)
        (sendTxOnce_submits cr t.signer t.waitUntil) _
    obtain ⟨a, ha, hsub⟩ := List.mem_filterMap.mp hstx
    exact (honly.leads hl).1 a ha stx hsub
  transactAsync := transactAsync_submitsOnce cr h
  calm hs := ⟨sendTxOnce_calm cr t.signer t.waitUntil hs, transactAsync_calm cr h hs⟩

theorem fails_of_error {e : Error} (h : t.actions = .error e) : Fails cr t e where
  transact := by simp only [BatchTransaction.transact, RetryableTransaction.intoFuture, h]
  transactAsync := by simp only [BatchTransaction.transactAsync, h]

end submits

/-- The calls on a batch builder that do what a function call transaction does. -/
def FunctionCallTransaction.calls (t : FunctionCallTransaction) : List BatchCall :=
  .call t.function :: (t.retryStrategy.toList.map .retry ++ [.waitUntil t.waitUntil])

/-- The batch builder with one call of the same function. -/
def FunctionCallTransaction.batch (t : FunctionCallTransaction) : BatchTransaction :=
  built t.signer t.receiverId t.calls

section functionCall

variable (cr : Crypto) (t : FunctionCallTransaction)

theorem batch_eq : t.batch = { NearFetch.batch t.signer t.receiverId with
    actions := t.function.intoAction.map fun action => [.functionCall action]
    retryStrategy := t.retryStrategy
    waitUntil := t.waitUntil } := by
  obtain ⟨signer, receiverId, ⟨name, args, deposit, gas⟩, strategy, waitUntil⟩ := t
  cases strategy <;> cases args <;> rfl

/-- A function call transaction does what the batch with one call of the same function does. -/
structure SubmitsAs (cr : Crypto) (t : FunctionCallTransaction) (b : BatchTransaction) : Prop where
  transact : t.transact cr = do
    let result ← b.transact cr
    return result.map .fromView
  transactAsync : t.transactAsync cr = b.transactAsync cr

theorem functionCall_submitsAs : SubmitsAs cr t t.batch := by
  rw [batch_eq]
  refine ⟨rfl, ?_⟩
  simp only [FunctionCallTransaction.transactAsync, BatchTransaction.transactAsync]
  cases t.function.intoAction <;> rfl

end functionCall

/-- A chain of calls without argument errors submits the actions of the calls, one per call and in
call order, with one transaction an attempt, on both paths, unless a query fails before; with argument
errors, both paths return the last of them and do nothing else.  A function call transaction is a
chain with one call of the same function. -/
theorem built_submits (cr : Crypto) (signer : SignerExt) (receiverId : AccountId)
    (calls : List BatchCall) :
    (argErrors calls = [] →
      calls.filterMap BatchCall.action = (actionsOf calls).map .ok ∧
      Submits cr (built signer receiverId calls) signer receiverId (actionsOf calls)) ∧
    (∀ e, (argErrors calls).getLast? = some e → Fails cr (built signer receiverId calls) e) ∧
    ∀ t : FunctionCallTransaction, SubmitsAs cr t (built t.signer t.receiverId t.calls) ∧
      actionsOf t.calls = actionsOf [.call t.function] ∧
      argErrors t.calls = argErrors [.call t.function] := by
  refine ⟨?_, ?_, ?_⟩
  · intro h
    have hsubmits := submits_of_actions cr (built_actions signer receiverId h)
    obtain ⟨hsigner, hreceiver⟩ := foldl_on_sends (batch signer receiverId) calls
    rw [← built] at hsigner hreceiver
    rw [hsigner, hreceiver] at hsubmits
    exact ⟨eq_map_ok h, hsubmits⟩
  · intro e h
    exact fails_of_error cr (built_error signer receiverId h)
  · intro t
    refine ⟨functionCall_submitsAs cr t, ?_⟩
    obtain ⟨signer, receiverId, function, strategy, waitUntil⟩ := t
    cases strategy <;> exact ⟨rfl, rfl⟩

end NearFetch
