import NearFetch.Inevitability
import NearFetch.NonceLock
import NearFetch.Tasks
import NearFetch.KeyRaces

/-! # Every schedule finishes

Deadlock freedom says that the tasks of a client are never all stuck.  Here it is turned into liveness:
with finitely many tasks, and an endpoint that gives some reply to every call, every schedule comes to a
state in which all tasks have ended or were dropped, and there the lock of the nonce cache is free
(`jobs_complete`).  No fairness is assumed of the schedule, and tasks may be dropped anywhere.

Nothing has to be measured for this, because programs are finite trees of effects; what is used of the
client is that its retries and polls are bounded, which is why they are programs at all. -/

namespace NearFetch

open Effects FifoLock

/-- The endpoint gives some reply to every call, whatever its state. -/
def Responsive {W A : Type} (ep : Endpoint W A) : Prop :=
  ∀ e call, ∃ reply e', ep.serve e call reply = some e'

/-- All tasks have ended or were dropped. -/
def Finished {ι W α : Type} (c : Config ι (Shared ι W) Op Op.Reply α) : Prop :=
  ∀ t, ¬ Unfinished c t

section completion

variable {ι W A α : Type} [DecidableEq ι] {w : ℕ} {ep : Endpoint W A} {counters : CounterId → ℕ}
  {nonces : CacheKey → Option Nonce} {e₀ : W} {prog : ι → Task α}
  {tr : List (Event ι Op Op.Reply)} {c : Config ι (Shared ι W) Op Op.Reply α}

theorem proceeds_of_awaitsReply (hep : Responsive ep) {t : ι} (h : AwaitsReply c t) :
    ∃ c', Proceeds (machine w ep) c c' := by
  obtain ⟨call, k, ht⟩ := h
  obtain ⟨reply, e', hserve⟩ := hep c.shared.endpoint call
  have hperform : (machine w ep).perform t (.rpc call) (some reply) c.shared =
      some (reply, { c.shared with endpoint := e' }) := by
    simp [machine, perform, hserve]
  exact ⟨_, .act ht hperform⟩

theorem proceeds_of_canStep {t : ι} (h : CanStep w ep c t) :
    ∃ c', Proceeds (machine w ep) c c' := by
  rcases h with ⟨e, k, r, s, ht, -, hperform⟩ | ⟨msg, ht⟩
  · exact ⟨_, .act ht hperform⟩
  · exact ⟨_, .unwind ht⟩

theorem lock_free_of_finished (hd : ∀ t, Disciplined (prog t))
    (h : Run (machine w ep) (.start ⟨counters, nonces, .free, e₀⟩ prog) tr c)
    (hc : Finished c) : c.shared.lock = .free := by
  have hlock := (cacheInv_reachable hd h).lock
  have hout : ∀ t, standings (ghost nonceProtocol .idle tr c) t = .out := by
    intro t
    by_contra hne
    obtain ⟨p, hp, hst⟩ := exists_of_standing hne rfl
    refine hc t ⟨p, hp, not_done_of_standing hd h hp ?_⟩
    rwa [hst]
  exact hlock.eq_free hout

/-- Every schedule of disciplined tasks comes to an end, and leaves the lock free. -/
theorem inevitably_finished [Fintype ι] (hep : Responsive ep) (hd : ∀ t, Disciplined (prog t))
    (h : Run (machine w ep) (.start ⟨counters, nonces, .free, e₀⟩ prog) tr c) :
    Inevitably (machine w ep) (fun c => Finished c ∧ c.shared.lock = .free) c := by
  apply inevitably_of_progress _ h
  intro tr' c' h'
  by_cases hfinished : Finished c'
  · exact .inl ⟨hfinished, lock_free_of_finished hd h' hfinished⟩
  · obtain ⟨t, ht⟩ := not_forall_not.mp hfinished
    right
    rcases steps_of_unfinished hd h' ht with ⟨u, hu⟩ | ⟨u, hu⟩
    · exact proceeds_of_awaitsReply hep hu
    · exact proceeds_of_canStep hu

end completion

section jobs

variable {ι W A : Type} [DecidableEq ι] [Fintype ι]

/-- Finitely many tasks, with any calls of the client one after another, over an endpoint that gives some
reply to every call: every schedule comes to a state in which all tasks have ended or were dropped and the
lock of the nonce cache is free. -/
theorem jobs_complete (cr : Crypto) (w : ℕ) {ep : Endpoint W A} (hep : Responsive ep)
    (jobs : ι → List Job) (counters : CounterId → ℕ) (nonces : CacheKey → Option Nonce) (e : W)
    {tr : List (Event ι Op Op.Reply)} {c : Config ι (Shared ι W) Op Op.Reply Unit}
    (h : Run (machine w ep)
      (.start ⟨counters, nonces, .free, e⟩ fun t => Job.session cr (jobs t)) tr c) :
    Inevitably (machine w ep) (fun c => Finished c ∧ c.shared.lock = .free) c :=
  inevitably_finished hep (fun t => Job.session_disciplined cr (jobs t)) h

theorem anyEndpoint_responsive : Responsive anyEndpoint := by
  intro e call
  have hreply : Nonempty call.Reply := by
    cases call <;> exact ⟨.error (.transportError "closed")⟩
  exact ⟨hreply.some, (), rfl⟩

theorem jobs_complete_rotating :
    ∃ tr c, Run (machine 64 anyEndpoint) (.start ⟨fun _ => 0, fun _ => none, .free, ()⟩ fun _ : Bool =>
        Job.session .transparent [.batch ((batch (rotatingAlice.ext .transparent) ⟨"bob.near"⟩).retry
          [100, 200])]) tr c ∧
      Finished c ∧ c.shared.lock = .free :=
  (jobs_complete .transparent 64 anyEndpoint_responsive _ _ _ _ .start).exists_run .start

end jobs

end NearFetch
