import NearFetch.Outcome
import NearFetch.Queries
import NearFetch.RetryBehaviour

/-! # Decoding what a call returned (`result.rs`, `query.rs`)

The value of an execution is kept in base64, and each way to decode it goes through its bytes.  The parsers of
`serde_json` and `borsh` are functions from bytes; which of them is used decides only which error a failure
becomes (`parsed`), so all conversions of a final result are instances of one (`andThen`), and the base64 form
does not show in any (`Decodes.eq`).

With what awaiting a transaction shows, this gives the meaning of a whole call, from its attempts to the decoded
value (`call_decodes`): the first reply that holds an outcome decides it, and an execution that failed is not
tried again. -/

namespace NearFetch

open Effects MachineSum

variable {α : Type}

/-- Parses bytes; `wrap` makes the error of the parser one of the client's. -/
def parsed (wrap : String → Error) (parse : List UInt8 → Except String α) (bytes : List UInt8) :
    Result α :=
  match parse bytes with
  | .ok a => .ok a
  | .error info => .error (wrap info)

/-! ### Values -/

namespace Value

variable (b64 : Base64) (v : Value)

/-- `Value::json`; `fromSlice` is `serde_json::from_slice`. -/
def json (fromSlice : List UInt8 → Except String α) : Result α := do
  let buf ← v.rawBytes b64
  parsed .serialization fromSlice buf

/-- `Value::borsh`; `tryFromSlice` is `BorshDeserialize::try_from_slice`. -/
def borsh (tryFromSlice : List UInt8 → Except String α) : Result α := do
  let buf ← v.rawBytes b64
  parsed .io tryFromSlice buf

end Value

namespace ExecutionResult

variable (b64 : Base64) (r : ExecutionSuccess)

/-- `ExecutionSuccess::json`. -/
def json (fromSlice : List UInt8 → Except String α) : Result α := r.value.json b64 fromSlice

/-- `ExecutionSuccess::borsh`. -/
def borsh (tryFromSlice : List UInt8 → Except String α) : Result α := r.value.borsh b64 tryFromSlice

/-- `ExecutionSuccess::raw_bytes`. -/
def rawBytes : Result (List UInt8) := r.value.rawBytes b64

end ExecutionResult

namespace ViewResult

variable (r : ViewResult)

/-- `ViewResult::json`. -/
def json (fromSlice : List UInt8 → Except String α) : Result α :=
  parsed .serialization fromSlice r.result

/-- `ViewResult::borsh`. -/
def borsh (tryFromSlice : List UInt8 → Except String α) : Result α :=
  parsed .io tryFromSlice r.result

end ViewResult

/-! ### Final results -/

namespace ExecutionFinalResult

variable (b64 : Base64) (mode : Overflow) (r : ExecutionFinalResult)

/-- `self.into_result()?` followed by a conversion of the success; `none` is a stopped program. -/
def andThen (f : ExecutionSuccess → Result α) : Option (Result α) := do
  let result ← r.intoResult b64 mode
  return result.bind f

/-- `ExecutionFinalResult::json`. -/
def json (fromSlice : List UInt8 → Except String α) : Option (Result α) :=
  r.andThen b64 mode fun success => success.json b64 fromSlice

/-- `ExecutionFinalResult::borsh`. -/
def borsh (tryFromSlice : List UInt8 → Except String α) : Option (Result α) :=
  r.andThen b64 mode fun success => success.borsh b64 tryFromSlice

/-- `ExecutionFinalResult::raw_bytes`. -/
def rawBytes : Option (Result (List UInt8)) := r.andThen b64 mode fun success => success.rawBytes b64

/-- `ExecutionFinalResult::unwrap`; `none` is a stopped program or a panic. -/
def unwrap : Option ExecutionSuccess := do
  let result ← r.intoResult b64 mode
  result.toOption

/-- `ExecutionFinalResult::is_success`. -/
def isSuccess : Bool :=
  match r.status with
  | .successValue _ => true
  | _ => false

/-- `ExecutionFinalResult::is_failure`. -/
def isFailure : Bool :=
  match r.status with
  | .failure _ => true
  | _ => false

end ExecutionFinalResult

/-- What a final status says of the value, of which `parse` is a reading. -/
def FinalExecutionStatus.value (parse : List UInt8 → Result α) : FinalExecutionStatus → Result α
  | .successValue bytes => parse bytes
  | .failure txError => .error (.txExecution txError)
  | .notStarted => .error (.txStatus "NotStarted")
  | .started => .error (.txStatus "Started")

section conversions

variable (b64 : Base64) (mode : Overflow) (r : ExecutionFinalResult)

/-- If the gas can be added up, a conversion that reads the bytes gives what the status says of them. -/
theorem ExecutionFinalResult.andThen_eq {f : ExecutionSuccess → Result α}
    {parse : List UInt8 → Result α}
    (hf : ∀ gas bytes details, f ⟨gas, ⟨b64.encode bytes⟩, details⟩ = parse bytes) :
    r.andThen b64 mode f = (r.totalGasBurnt mode).map fun _ => r.status.value parse := by
  unfold andThen intoResult
  cases r.totalGasBurnt mode with
  | none => rfl
  | some gas =>
      cases r.status with
      | successValue bytes => exact congrArg some (hf gas bytes r.details)
      | _ => rfl

/-- The ways to decode a final result, each with the reading of the bytes that it is. -/
inductive Decodes (b64 : Base64) (mode : Overflow) :
    {α : Type} → (ExecutionFinalResult → Option (Result α)) → (List UInt8 → Result α) → Prop
  | json {α : Type} (fromSlice : List UInt8 → Except String α) :
      Decodes b64 mode (fun r => r.json b64 mode fromSlice) (parsed .serialization fromSlice)
  | borsh {α : Type} (tryFromSlice : List UInt8 → Except String α) :
      Decodes b64 mode (fun r => r.borsh b64 mode tryFromSlice) (parsed .io tryFromSlice)
  | rawBytes : Decodes b64 mode (fun r => r.rawBytes b64 mode) .ok

variable {b64 mode}

/-- Base64 does not show in any of them. -/
theorem Decodes.eq {decode : ExecutionFinalResult → Option (Result α)}
    {parse : List UInt8 → Result α} (h : Decodes b64 mode decode parse) :
    decode r = (r.totalGasBurnt mode).map fun _ => r.status.value parse := by
  cases h with
  | json fromSlice =>
      apply r.andThen_eq
      intro gas bytes details
      rw [ExecutionResult.json, Value.json, Value.rawBytes_encode]
      rfl
  | borsh tryFromSlice =>
      apply r.andThen_eq
      intro gas bytes details
      rw [ExecutionResult.borsh, Value.borsh, Value.rawBytes_encode]
      rfl
  | rawBytes =>
      apply r.andThen_eq
      intro gas bytes details
      rw [ExecutionResult.rawBytes, Value.rawBytes_encode]

/-- `unwrap` panics unless `is_success` holds and the gas can be added up. -/
theorem ExecutionFinalResult.unwrap_isSome_iff :
    (r.unwrap b64 mode).isSome = true ↔
      r.isSuccess = true ∧ (r.totalGasBurnt mode).isSome = true := by
  unfold unwrap intoResult isSuccess
  cases r.totalGasBurnt mode with
  | none => simp
  | some gas => cases r.status <;> simp [Except.toOption]

theorem ExecutionFinalResult.rawBytes_tells {gas : ℕ} (hgas : r.totalGasBurnt mode = some gas) :
    (r.isSuccess = true ↔ ∃ bytes, r.rawBytes b64 mode = some (.ok bytes)) ∧
      (r.isFailure = true ↔ ∃ err, r.rawBytes b64 mode = some (.error (.txExecution err))) := by
  have hbytes : r.rawBytes b64 mode = some (r.status.value .ok) := by
    rw [Decodes.rawBytes.eq r, hgas]
    rfl
  rw [hbytes]
  unfold isSuccess isFailure
  cases r.status <;> simp [FinalExecutionStatus.value]

end conversions

/-! ### Calls -/

/-- A value that is there unless the program has stopped. -/
def orStop : Option α → Task α
  | some a => return a
  | none => .panic "attempt to add with overflow"

/-- `transact().await?` followed by a conversion of the final result. -/
def FunctionCallTransaction.transactThen (t : FunctionCallTransaction) (cr : Crypto)
    (decode : ExecutionFinalResult → Option (Result α)) : Task (Result α) := do
  match ← t.transact cr with
  | .error err => return .error err
  | .ok result => orStop (decode result)

/-- What the result of an attempt is decoded to; of an outcome, what its status says, if its gas can be added
up. -/
inductive Attempt.Gives (mode : Overflow) (parse : List UInt8 → Result α) (a : Attempt) :
    Result α → Prop
  | error {err : Error} (h : a.result = .error err) : Gives mode parse a (.error err)
  | outcome (view : FinalExecutionOutcomeView) (h : a.result = .ok view)
      (hgas : ((ExecutionFinalResult.fromView view).totalGasBurnt mode).isSome = true) :
      Gives mode parse a (view.status.value parse)

section calls

variable {b64 : Base64} {mode : Overflow} {os : List Outward} {r : Result α}
  {decode : ExecutionFinalResult → Option (Result α)} {parse : List UInt8 → Result α}

theorem orStop_shows {x : Option α} {a : α} :
    Shows outward (orStop x) os a ↔ os = [] ∧ x = some a := by
  cases x with
  | some b =>
      rw [Option.some_inj, eq_comm (a := b)]
      exact shows_pure
  | none =>
      refine iff_of_false ?_ (by simp)
      rintro ⟨l, hl, -⟩
      exact not_returns_panic hl

/-- The attempts to send a function call. -/
abbrev FunctionCallTransaction.Attempts (t : FunctionCallTransaction) (cr : Crypto)
    (action : FunctionCallAction) : Attempt → Prop :=
  Attempt.Of cr t.signer t.receiverId [.functionCall action]

theorem FunctionCallTransaction.transact_shows (cr : Crypto) {t : FunctionCallTransaction}
    {action : FunctionCallAction} (haction : t.function.intoAction = .ok action)
    {r : Result ExecutionFinalResult} :
    Shows outward (t.transact cr) os r ↔
      ∃ failed last, Retries (t.Attempts cr action) (t.retryStrategy.getD []) failed last ∧
        os = retriesShown t.waitUntil (t.retryStrategy.getD []) failed last ∧
        r = last.result.map .fromView := by
  let tx : RetryableTransaction :=
    { signer := t.signer
      receiverId := t.receiverId
      actions := t.function.intoAction.map fun action => [.functionCall action]
      strategy := t.retryStrategy
      waitUntil := t.waitUntil }
  have htx : tx.actions = .ok [.functionCall action] :=
    congrArg (Except.map fun action => [Action.functionCall action]) haction
  have htransact : t.transact cr = tx.intoFuture cr >>= fun result => pure (result.map .fromView) := rfl
  have hshows : ∀ result, Shows outward (tx.intoFuture cr) os result ↔
      ∃ failed last, Retries (t.Attempts cr action) (t.retryStrategy.getD []) failed last ∧
        os = retriesShown t.waitUntil (t.retryStrategy.getD []) failed last ∧
        result = last.result := by
    intro result
    rw [tx.intoFuture_ok cr htx]
    exact resend_shows cr _ _ _ _ _
  rw [htransact, shows_map]
  constructor
  · rintro ⟨result, hresult, rfl⟩
    obtain ⟨failed, last, h, rfl, rfl⟩ := (hshows result).mp hresult
    exact ⟨failed, last, h, rfl, rfl⟩
  · rintro ⟨failed, last, h, rfl, rfl⟩
    exact ⟨last.result, (hshows last.result).mpr ⟨failed, last, h, rfl, rfl⟩, rfl⟩

theorem Decodes.gives_iff (hd : Decodes b64 mode decode parse) (a : Attempt) :
    a.Gives mode parse r ↔
      (∃ err, a.result = .error err ∧ r = .error err) ∨
        ∃ view, a.result = .ok view ∧ decode (.fromView view) = some r := by
  constructor
  · intro h
    cases h with
    | error h => exact .inl ⟨_, h, rfl⟩
    | outcome view h hgas =>
        refine .inr ⟨view, h, ?_⟩
        obtain ⟨gas, hgas⟩ := Option.isSome_iff_exists.mp hgas
        rw [hd.eq, hgas]
        rfl
  · rintro (⟨err, h, rfl⟩ | ⟨view, h, hdecode⟩)
    · exact .error h
    · rw [hd.eq] at hdecode
      obtain ⟨gas, hgas, rfl⟩ := Option.map_eq_some_iff.mp hdecode
      exact .outcome view h (Option.isSome_iff_exists.mpr ⟨gas, hgas⟩)

/-- Awaiting a call whose arguments are in order and decoding what it returned: it shows attempts that failed,
each followed by its delay, and a last one, which the value or the error is read off. -/
theorem call_decodes (cr : Crypto) {t : FunctionCallTransaction} {action : FunctionCallAction}
    (haction : t.function.intoAction = .ok action) (hd : Decodes b64 mode decode parse) :
    Shows outward (t.transactThen cr decode) os r ↔
      ∃ failed last, Retries (t.Attempts cr action) (t.retryStrategy.getD []) failed last ∧
        os = retriesShown t.waitUntil (t.retryStrategy.getD []) failed last ∧
        last.Gives mode parse r := by
  unfold FunctionCallTransaction.transactThen
  rw [shows_bind]
  constructor
  · rintro ⟨result, os₁, os₂, rfl, h₁, h₂⟩
    obtain ⟨failed, last, h, rfl, rfl⟩ := (t.transact_shows cr haction).mp h₁
    cases hlast : last.result with
    | error err =>
        rw [hlast] at h₂
        obtain ⟨rfl, rfl⟩ := shows_pure.mp h₂
        exact ⟨failed, last, h, List.append_nil _, (hd.gives_iff last).mpr (.inl ⟨err, hlast, rfl⟩)⟩
    | ok view =>
        rw [hlast] at h₂
        obtain ⟨rfl, hdecode⟩ := orStop_shows.mp h₂
        exact ⟨failed, last, h, List.append_nil _,
          (hd.gives_iff last).mpr (.inr ⟨view, hlast, hdecode⟩)⟩
  · rintro ⟨failed, last, h, rfl, hgives⟩
    refine ⟨_, _, [], (List.append_nil _).symm,
      (t.transact_shows cr haction).mpr ⟨failed, last, h, rfl, rfl⟩, ?_⟩
    rcases (hd.gives_iff last).mp hgives with ⟨err, hlast, rfl⟩ | ⟨view, hlast, hdecode⟩
    · rw [hlast]
      exact shows_pure.mpr ⟨rfl, rfl⟩
    · rw [hlast]
      exact orStop_shows.mpr ⟨rfl, hdecode⟩

/-- `u8::try_from_slice`. -/
def readU8 : List UInt8 → Except String UInt8
  | [b] => .ok b
  | [] => .error "Unexpected length of input"
  | _ => .error "Not all bytes read"

/-- The outcome of a call that returned the byte 7, and of one that failed. -/
def countedSeven : FinalExecutionOutcomeView := { paid with status := .successValue [7] }

def countFailed : FinalExecutionOutcomeView :=
  { paid with status := .failure (.invalidTxError (.other "Expired")) }

/-- A call with one retry. -/
def countOnce : FunctionCallTransaction :=
  (call (payer.ext .transparent) ⟨"counter.near"⟩ "count").retry [100]

/-- What is submitted for it, built on the block 7. -/
def countTransaction (nonce : Nonce) : SignedTransaction :=
  let tx : Transaction := ⟨payer.accountId, payer.publicKey, nonce, ⟨"counter.near"⟩, ⟨[7]⟩,
    [.functionCall ⟨"count", [], defaultCallFnGas, defaultCallDeposit⟩]⟩
  ⟨payer.sign .transparent (Crypto.transparent.getHash tx).bytes, tx⟩

/-- A timeout leads to a second attempt, and a failed execution does not. -/
theorem call_decodes_countOnce :
    Shows outward
        (countOnce.transactThen .transparent fun result => result.borsh .plain .stops readU8)
        [.call (.block .latest) (.ok ⟨⟨⟨[7]⟩, 7⟩⟩),
          .call (.sendTx (countTransaction 5) .default)
            (.error (.serverError (.handlerError .timeoutError))),
          .sleep 100, .call (.block .latest) (.ok ⟨⟨⟨[7]⟩, 7⟩⟩),
          .call (.sendTx (countTransaction 6) .default)
            (.ok ⟨some (.finalExecutionOutcome countedSeven), .final⟩)]
        (.ok 7) ∧
      Shows outward
        (countOnce.transactThen .transparent fun result => result.borsh .plain .stops readU8)
        [.call (.block .latest) (.ok ⟨⟨⟨[7]⟩, 7⟩⟩),
          .call (.sendTx (countTransaction 5) .default)
            (.ok ⟨some (.finalExecutionOutcome countFailed), .final⟩)]
        (.error (.txExecution (.invalidTxError (.other "Expired")))) := by
  have haccount : CanReturn countOnce.signer.accountId payer.accountId := ⟨[], .refl _⟩
  have hkey : CanReturn countOnce.signer.publicKey payer.publicKey := ⟨[], .refl _⟩
  let lookup : Lookup := .block (.ok ⟨⟨⟨[7]⟩, 7⟩⟩)
  have hsent : ∀ nonce < 2 ^ 64, ∀ reply,
      countOnce.Attempts .transparent ⟨"count", [], defaultCallFnGas, defaultCallDeposit⟩
        (.sent lookup (countTransaction nonce) reply) := fun nonce hlt _ =>
    Lookup.Signs.signed haccount hkey (.cached nonce hlt _) haccount ⟨[], .refl _⟩
  have hd : Decodes .plain .stops (fun result => result.borsh .plain .stops readU8)
      (parsed .io readU8) := .borsh readU8
  constructor
  · have hlast : Retries (countOnce.Attempts .transparent _) [] [] (.sent lookup (countTransaction 6)
        (.ok ⟨some (.finalExecutionOutcome countedSeven), .final⟩)) :=
      .single (hsent 6 (by decide) _) (.inr rfl)
    exact (call_decodes .transparent rfl hd).mpr
      ⟨[.sent lookup _ (.error (.serverError (.handlerError .timeoutError)))], _,
        hlast.cons (hsent 5 (by decide) _) rfl, rfl, .outcome countedSeven rfl rfl⟩
  · exact (call_decodes .transparent rfl hd).mpr
      ⟨[], _, .single (hsent 5 (by decide) _) (.inl rfl), rfl, .outcome countFailed rfl rfl⟩

end calls

end NearFetch
