import NearFetch.RetryLoop

/-! # The transaction that a handle names

A handle asks for the status of a transaction under the account and the hash that `transact_async`
put into it, whatever calls are made on it (`HandleCall.session_asks`).  Both builders put the
receiver there as the account, so the requests name the transaction that was sent exactly when the
receiver is its signer (`transactAsync_names_iff`). -/

namespace NearFetch

open Effects

/-- The calls on a handle that make status requests. -/
inductive HandleCall where
  | status
  | wait (interval polls : ℕ)
  | await (polls : ℕ)
  | waitUntil (level : TxExecutionStatus)

namespace HandleCall

variable (h : AsyncTransactionStatus)

/-- The task that makes the call and forgets the result. -/
def task : HandleCall → Task Unit
  | .status => do
      let _ ← h.status
      return ()
  | .wait interval polls => do
      let _ ← h.wait interval polls
      return ()
  | .await polls => do
      let _ ← h.waitDefault polls
      return ()
  | .waitUntil level => do
      let _ ← h.waitUntil level
      return ()

/-- The task that makes one call after another on a handle and its clones. -/
def session : List HandleCall → Task Unit
  | [] => return ()
  | call :: calls => do
      call.task h
      session calls

end HandleCall

/-- The effect is a pause or a status request that names the handle's account and hash. -/
def AsyncTransactionStatus.Asks (h : AsyncTransactionStatus) : Op → Prop
  | .rpc (.tx senderId hash _) => senderId = h.senderId ∧ hash = h.hash
  | .sleep _ => True
  | _ => False

section names

variable (h : AsyncTransactionStatus)

theorem statusTxAsync_asks (level : TxExecutionStatus) :
    Only h.Asks (statusTxAsync h.senderId h.hash level) := by
  refine ⟨⟨rfl, rfl⟩, fun reply => ?_⟩
  cases reply with
  | error err => trivial
  | ok response =>
      obtain ⟨outcome, level⟩ := response
      cases level <;> cases outcome <;> trivial

theorem status_asks : Only h.Asks h.status := by
  refine (statusTxAsync_asks h .included).bind fun result => ?_
  split <;> first | trivial | (split <;> trivial)

theorem wait_asks (interval polls : ℕ) : Only h.Asks (h.wait interval polls) := by
  induction polls with
  | zero => trivial
  | succ polls ih =>
      refine (status_asks h).bind fun result => ?_
      split
      · trivial
      · trivial
      · exact ⟨trivial, fun _ => ih⟩

theorem waitUntil_asks (level : TxExecutionStatus) : Only h.Asks (h.waitUntil level) := by
  refine (statusTxAsync_asks h level).bind fun result => ?_
  cases result <;> trivial

theorem HandleCall.task_asks (call : HandleCall) : Only h.Asks (call.task h) := by
  cases call with
  | status => exact (status_asks h).bind fun _ => trivial
  | wait interval polls => exact (wait_asks h interval polls).bind fun _ => trivial
  | await polls => exact (wait_asks h 300 polls).bind fun _ => trivial
  | waitUntil level => exact (waitUntil_asks h level).bind fun _ => trivial

theorem HandleCall.session_asks (calls : List HandleCall) :
    Only h.Asks (HandleCall.session h calls) := by
  induction calls with
  | nil => trivial
  | cons call calls ih => exact (call.task_asks h).bind fun _ => ih

/-- The handle's account is the transaction's signer, and every status request of later calls on
the handle names the transaction. -/
structure Names (cr : Crypto) (h : AsyncTransactionStatus) (stx : SignedTransaction) : Prop where
  sender : h.senderId = stx.transaction.signerId
  requests : ∀ calls senderId hash level,
    Issues (HandleCall.session h calls) (.rpc (.tx senderId hash level)) →
      senderId = stx.transaction.signerId ∧ hash = cr.getHash stx.transaction

theorem names_iff {cr : Crypto} {h : AsyncTransactionStatus} {stx : SignedTransaction}
    (hhash : h.hash = cr.getHash stx.transaction) :
    Names cr h stx ↔ h.senderId = stx.transaction.signerId := by
  constructor
  · exact Names.sender
  · intro hsender
    refine ⟨hsender, fun calls senderId hash level hissues => ?_⟩
    obtain ⟨hs, hh⟩ := (HandleCall.session_asks h calls).issues hissues
    exact ⟨hs.trans hsender, hh.trans hhash⟩

end names

/-- A builder whose transaction can be sent without waiting. -/
inductive AsyncBuilder where
  | functionCall (t : FunctionCallTransaction)
  | batch (t : BatchTransaction)

namespace AsyncBuilder

/-- The signer of the builder. -/
def signer : AsyncBuilder → SignerExt
  | .functionCall t => t.signer
  | .batch t => t.signer

/-- The receiver of the builder. -/
def receiverId : AsyncBuilder → AccountId
  | .functionCall t => t.receiverId
  | .batch t => t.receiverId

/-- `transact_async` of the builder. -/
def transactAsync (cr : Crypto) : AsyncBuilder → Task (Result AsyncTransactionStatus)
  | .functionCall t => t.transactAsync cr
  | .batch t => t.transactAsync cr

end AsyncBuilder

/-- The signer gives the account on a stretch of the path. -/
def Gives (signer : SignerExt) (l : List (Act Op Op.Reply)) (accountId : AccountId) : Prop :=
  ∃ l₁ la l₂, l = l₁ ++ la ++ l₂ ∧ Returns signer.accountId la accountId

/-- A path sends one transaction to the receiver, with the given hash, whose signer is the account
that the signer gave on the way. -/
structure Sent (cr : Crypto) (signer : SignerExt) (receiverId accountId : AccountId)
    (hash : CryptoHash) (l : List (Act Op Op.Reply)) (stx : SignedTransaction) : Prop where
  submissions : submissions l = [stx]
  hash : hash = cr.getHash stx.transaction
  receiver : stx.transaction.receiverId = receiverId
  initiator : stx.transaction.signerId = accountId
  given : Gives signer l accountId

section sent

variable {cr : Crypto} {signer : SignerExt} {receiverId : AccountId} {actions : List Action}

theorem sendTxAsync_sent {l : List (Act Op Op.Reply)} {hash : CryptoHash}
    (h : Returns (sendTxAsync cr signer receiverId actions) l (.ok hash)) :
    ∃ accountId stx, Sent cr signer receiverId accountId hash l stx := by
  unfold sendTxAsync at h
  obtain ⟨accountId, l₁, m₁, rfl, h₁, hr₁⟩ := returns_bind.mp h
  obtain ⟨publicKey, l₂, m₂, rfl, h₂, hr₂⟩ := returns_bind.mp hr₁
  obtain ⟨signed, l₃, m₃, rfl, h₃, hr₃⟩ := returns_bind.mp hr₂
  cases signed with
  | error err =>
      obtain ⟨-, hres⟩ := returns_pure.mp hr₃
      cases hres
  | ok stx =>
      obtain ⟨hreceiver, -, k₁, la, k₂, rfl, ha⟩ := signTx_returns cr signer receiverId actions h₃
      obtain ⟨reply, m₄, rfl, hr₄⟩ := returns_effect.mp hr₃
      obtain ⟨_, l₅, m₅, rfl, h₅, hr₅⟩ := returns_bind.mp hr₄
      cases reply with
      | error err =>
          obtain ⟨-, hres⟩ := returns_pure.mp hr₅
          cases hres
      | ok response =>
          obtain ⟨rfl, hres⟩ := returns_pure.mp hr₅
          cases hres
          have hsigned := (signTx_silent cr signer receiverId actions).submissions h₃
          have haccount := signer.accountId_sync.offline.silent.submissions h₁
          have hpublic := signer.publicKey_sync.offline.silent.submissions h₂
          have hinvalidate := ((invalidateCacheIf_invalidates _).offline _
            (.ok response)).silent.submissions h₅
          refine ⟨stx.transaction.signerId, stx, ?_, rfl, hreceiver, rfl, l₁ ++ (l₂ ++ k₁), la,
            k₂ ++ (⟨.rpc (.sendTx stx .none), .ok response⟩ :: (l₅ ++ [])), by simp, ha⟩
          rw [submissions_append, submissions_append, submissions_append, haccount, hpublic,
            hsigned, submissions_sendTx, submissions_append, hinvalidate]
          rfl

theorem handle_sent {l : List (Act Op Op.Reply)} {h : AsyncTransactionStatus}
    (hret : Returns (do
      match ← sendTxAsync cr signer receiverId actions with
      | .error err => return .error err
      | .ok hash => return (.ok ⟨receiverId, hash⟩ : Result AsyncTransactionStatus)) l (.ok h)) :
    h.senderId = receiverId ∧
      ∃ accountId stx, Sent cr signer receiverId accountId h.hash l stx := by
  obtain ⟨result, l₁, l₂, rfl, h₁, hr⟩ := returns_bind.mp hret
  cases result with
  | error err =>
      obtain ⟨-, hres⟩ := returns_pure.mp hr
      cases hres
  | ok hash =>
      obtain ⟨rfl, hres⟩ := returns_pure.mp hr
      cases hres
      rw [List.append_nil]
      exact ⟨rfl, sendTxAsync_sent h₁⟩

theorem transactAsync_sent {b : AsyncBuilder} {l : List (Act Op Op.Reply)}
    {h : AsyncTransactionStatus} (hret : Returns (b.transactAsync cr) l (.ok h)) :
    h.senderId = b.receiverId ∧
      ∃ accountId stx, Sent cr b.signer b.receiverId accountId h.hash l stx := by
  cases b with
  | functionCall t =>
      simp only [AsyncBuilder.transactAsync, FunctionCallTransaction.transactAsync] at hret
      cases ha : t.function.intoAction with
      | error err =>
          rw [ha] at hret
          obtain ⟨-, hres⟩ := returns_pure.mp hret
          cases hres
      | ok action =>
          rw [ha] at hret
          exact handle_sent hret
  | batch t =>
      simp only [AsyncBuilder.transactAsync, BatchTransaction.transactAsync] at hret
      cases ha : t.actions with
      | error err =>
          rw [ha] at hret
          obtain ⟨-, hres⟩ := returns_pure.mp hret
          cases hres
      | ok actions =>
          rw [ha] at hret
          exact handle_sent hret

theorem Sent.names_iff {accountId : AccountId} {h : AsyncTransactionStatus}
    {l : List (Act Op Op.Reply)} {stx : SignedTransaction}
    (hsent : Sent cr signer receiverId accountId h.hash l stx) (hreceiver : h.senderId = receiverId) :
    Names cr h stx ↔ receiverId = accountId := by
  rw [NearFetch.names_iff hsent.hash, hreceiver, hsent.initiator]

/-- The handle of a transaction that was sent names it exactly when the receiver is the account
that the signer gave for it. -/
theorem transactAsync_names_iff (cr : Crypto) (b : AsyncBuilder) {l : List (Act Op Op.Reply)}
    {h : AsyncTransactionStatus} (hret : Returns (b.transactAsync cr) l (.ok h)) :
    ∃ accountId stx, Sent cr b.signer b.receiverId accountId h.hash l stx ∧
      (Names cr h stx ↔ b.receiverId = accountId) := by
  obtain ⟨hreceiver, accountId, stx, hsent⟩ := transactAsync_sent hret
  exact ⟨accountId, stx, hsent, hsent.names_iff hreceiver⟩

/-- With a signer of one account the handle names its transaction exactly when that account is the
receiver. -/
theorem transactAsync_names_iff_receiver (cr : Crypto) (b : AsyncBuilder) {a : AccountId}
    (ha : ∀ l x, Returns b.signer.accountId l x → x = a) {l : List (Act Op Op.Reply)}
    {h : AsyncTransactionStatus} (hret : Returns (b.transactAsync cr) l (.ok h)) :
    ∃ stx, submissions l = [stx] ∧ h.hash = cr.getHash stx.transaction ∧
      (Names cr h stx ↔ b.receiverId = a) := by
  obtain ⟨hreceiver, accountId, stx, hsent⟩ := transactAsync_sent hret
  have haccount : accountId = a := by
    obtain ⟨l₁, la, l₂, -, hgiven⟩ := hsent.given
    exact ha la accountId hgiven
  refine ⟨stx, hsent.submissions, hsent.hash, ?_⟩
  rw [hsent.names_iff hreceiver, haccount]

end sent

/-! ### A handle that names the receiver -/

section registry

/-- Alice calls a contract without waiting. -/
def aliceCalls (contractId : AccountId) : AsyncBuilder :=
  .functionCall (call (payer.ext .transparent) contractId "register")

/-- Replies of an endpoint that accepts everything. -/
def acceptingReplies : (e : Op) → Option e.Reply :=
  replies fun call => match call with
    | .block _ => .ok ⟨⟨⟨[7]⟩, 7⟩⟩
    | .query _ _ => .ok ⟨.accessKey ⟨0, .fullAccess⟩, ⟨[7]⟩, 7⟩
    | .gasPrice _ => .error (.transportError "closed")
    | .chunk _ => .error (.transportError "closed")
    | .sendTx _ _ => .ok ⟨none, .none⟩
    | .tx _ _ _ => .ok ⟨none, .none⟩

theorem aliceCalls_returns (contractId : AccountId) :
    ∃ l, Returns ((aliceCalls contractId).transactAsync .transparent) l
      (.ok ⟨contractId, ⟨[1, 1]⟩⟩) := by
  have hexec : ∃ tr c, (machine 64 anyEndpoint).exec []
      (.start aloneWith fun _ => (aliceCalls contractId).transactAsync .transparent)
      (List.replicate 12 (.act () acceptingReplies)) = some (tr, c) ∧
      c.thread () = some (.pure (.ok ⟨contractId, ⟨[1, 1]⟩⟩)) :=
    ⟨_, _, rfl, rfl⟩
  obtain ⟨tr, c, hexec, hthread⟩ := hexec
  exact ⟨acts () tr, (Run.start.exec hexec).leads_of_thread hthread⟩

theorem alice_gives {l : List (Act Op Op.Reply)} {accountId : AccountId}
    (h : Gives (payer.ext .transparent) l accountId) : accountId = ⟨"alice.near"⟩ := by
  obtain ⟨l₁, la, l₂, -, ha⟩ := h
  exact (returns_pure.mp ha).2

/-- Alice calls a contract, and the handle asks for the status under the contract's account. -/
theorem handle_names_receiver :
    ∃ l h stx, Returns ((aliceCalls ⟨"registry.near"⟩).transactAsync .transparent) l (.ok h) ∧
      Sent .transparent (payer.ext .transparent) ⟨"registry.near"⟩ ⟨"alice.near"⟩ h.hash l stx ∧
      Issues (HandleCall.session h [.status]) (.rpc (.tx ⟨"registry.near"⟩ h.hash .included)) ∧
      ¬ Names .transparent h stx := by
  obtain ⟨l, hret⟩ := aliceCalls_returns ⟨"registry.near"⟩
  obtain ⟨-, accountId, stx, hsent⟩ := transactAsync_sent hret
  obtain rfl := alice_gives hsent.given
  refine ⟨l, _, stx, hret, hsent, ⟨[], _, .refl _⟩, ?_⟩
  intro hnames
  have hsender := hnames.sender
  rw [hsent.initiator] at hsender
  simp at hsender

theorem transactAsync_names_iff_self :
    ∃ l h stx, Returns ((aliceCalls ⟨"alice.near"⟩).transactAsync .transparent) l (.ok h) ∧
      Sent .transparent (payer.ext .transparent) ⟨"alice.near"⟩ ⟨"alice.near"⟩ h.hash l stx ∧
      Names .transparent h stx := by
  obtain ⟨l, hret⟩ := aliceCalls_returns ⟨"alice.near"⟩
  obtain ⟨accountId, stx, hsent, hiff⟩ := transactAsync_names_iff _ _ hret
  obtain rfl := alice_gives hsent.given
  exact ⟨l, _, stx, hret, hsent, hiff.mpr rfl⟩

end registry

end NearFetch
