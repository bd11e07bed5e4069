import Mathlib.Data.List.Nodup
import Mathlib.Logic.Function.Basic

/-! # A fair read-write lock

A first-in first-out read-write lock over an arbitrary type of threads.  A thread first puts
a request in the queue and is later granted the lock at the head of the queue, when no
holder stands against it.  The lock prefers no side: a queued writer blocks every
reader behind it, whoever holds the lock.

`Agrees g l` says that the lock `l` is what the threads believe it is, where `g t` is the
`Standing` of thread `t` (outside, queued, or holding a guard).  Every operation that a
thread may perform in its standing keeps it (`Agrees.request`, `Agrees.acquire`,
`Agrees.release`, `Agrees.discard`), a writer is alone (`Agrees.alone`), and a lock somebody
waits for either can be granted or is held (`Agrees.progress`). -/

namespace FifoLock

/-- The two kinds of guard. -/
inductive Mode where
  | read
  | write
deriving DecidableEq, Repr

/-- Threads that hold a read guard, the one that holds the write guard, and the requests that
have not been granted, oldest first. -/
structure RwLock (ι : Type) where
  readers : List ι
  writer : Option ι
  queue : List (ι × Mode)

namespace RwLock

variable {ι : Type}

/-- Nobody holds the lock and nobody waits. -/
def free : RwLock ι := ⟨[], none, []⟩

/-- The guards that are out leave room for one more of the given mode. -/
def admits (l : RwLock ι) : Mode → Bool
  | .read => l.writer.isNone
  | .write => l.writer.isNone && l.readers.isEmpty

/-- Thread `t` queues up. -/
def request (t : ι) (m : Mode) (l : RwLock ι) : RwLock ι := { l with queue := l.queue ++ [(t, m)] }

/-- The lock with one more guard out and the rest `q` of the queue. -/
def grant (t : ι) (q : List (ι × Mode)) (l : RwLock ι) : Mode → RwLock ι
  | .read => ⟨t :: l.readers, l.writer, q⟩
  | .write => ⟨l.readers, some t, q⟩

theorem admits_read {l : RwLock ι} : l.admits .read = true ↔ l.writer = none := by
  simp [admits]

theorem admits_write {l : RwLock ι} : l.admits .write = true ↔ l.writer = none ∧ l.readers = [] := by
  simp [admits]

variable [DecidableEq ι]

/-- Thread `t` is granted the lock if its request is the oldest and the holders admit it. -/
def acquire (t : ι) (m : Mode) (l : RwLock ι) : Option (RwLock ι) :=
  match l.queue with
  | (u, n) :: q => if u = t ∧ n = m ∧ l.admits m = true then some (l.grant t q m) else none
  | [] => none

/-- Thread `t` drops its guard. -/
def release (t : ι) (l : RwLock ι) : RwLock ι :=
  { l with readers := l.readers.filter (· ≠ t), writer := l.writer.filter (· ≠ t) }

/-- Thread `t` drops its guard and leaves the queue. -/
def discard (t : ι) (l : RwLock ι) : RwLock ι :=
  { l.release t with queue := l.queue.filter (·.1 ≠ t) }

/-- What a granted request was, and what the lock is then. -/
theorem acquire_eq_some {t : ι} {m : Mode} {l l' : RwLock ι} (h : l.acquire t m = some l') :
    ∃ q, l.queue = (t, m) :: q ∧ l.admits m = true ∧ l' = l.grant t q m := by
  unfold acquire at h
  cases hq : l.queue with
  | nil => simp [hq] at h
  | cons x q =>
      obtain ⟨u, n⟩ := x
      simp only [hq] at h
      split at h
      · rename_i hc
        obtain ⟨rfl, rfl, ha⟩ := hc
        exact ⟨q, rfl, ha, (Option.some.inj h).symm⟩
      · cases h

theorem discard_eq_self {t : ι} {l : RwLock ι} (hr : t ∉ l.readers) (hw : l.writer ≠ some t)
    (hq : ∀ m, (t, m) ∉ l.queue) : l.discard t = l := by
  obtain ⟨readers, writer, queue⟩ := l
  have hreaders : readers.filter (· ≠ t) = readers :=
    List.filter_eq_self.mpr fun u hu => decide_eq_true (ne_of_mem_of_not_mem hu hr)
  have hwriter : writer.filter (· ≠ t) = writer := by
    cases writer with
    | none => rfl
    | some u => exact Option.filter_some_pos (decide_eq_true fun hut => hw (congrArg some hut))
  have hqueue : queue.filter (·.1 ≠ t) = queue := by
    refine List.filter_eq_self.mpr fun x hx => decide_eq_true ?_
    rintro rfl
    exact hq x.2 hx
  simp only [discard, release, hreaders, hwriter, hqueue]

@[simp] theorem acquire_request_free (t : ι) (m : Mode) :
    (free.request t m).acquire t m = some (free.grant t [] m) := by
  cases m <;> simp [free, request, acquire, admits, grant]

@[simp] theorem release_grant_free (t : ι) (m : Mode) :
    (free.grant t [] m).release t = free := by
  cases m <;> simp [free, grant, release]

end RwLock

/-- What a thread has to do with the lock. -/
inductive Standing where
  | out
  | queued (m : Mode)
  | holds (m : Mode)
deriving DecidableEq, Repr

variable {ι : Type}

/-- The lock is as the threads' standings say. -/
structure Agrees (g : ι → Standing) (l : RwLock ι) : Prop where
  queued : ∀ t m, (t, m) ∈ l.queue ↔ g t = .queued m
  reading : ∀ t, t ∈ l.readers ↔ g t = .holds .read
  writing : ∀ t, l.writer = some t ↔ g t = .holds .write
  exclusive : l.writer ≠ none → l.readers = []
  distinct : (l.queue.map Prod.fst).Nodup

theorem agrees_free : Agrees (fun _ : ι => .out) RwLock.free := by
  constructor <;> simp [RwLock.free]

namespace Agrees

variable {g : ι → Standing} {l l' : RwLock ι} {t u : ι} {m n : Mode}

theorem alone (h : Agrees g l) (ht : g t = .holds .write) (hu : g u = .holds m) : u = t := by
  have hw := (h.writing t).mpr ht
  cases m with
  | read =>
      have hr := (h.reading u).mpr hu
      rw [h.exclusive (by simp [hw])] at hr
      exact absurd hr List.not_mem_nil
  | write =>
      have hw' := (h.writing u).mpr hu
      rw [hw] at hw'
      exact (Option.some.inj hw').symm

theorem eq_free (h : Agrees g l) (hout : ∀ t, g t = .out) : l = .free := by
  obtain ⟨readers, writer, queue⟩ := l
  have hreaders : readers = [] := by
    refine List.eq_nil_iff_forall_not_mem.mpr fun t ht => ?_
    rw [h.reading t, hout t] at ht
    cases ht
  have hwriter : writer = none := by
    refine Option.eq_none_iff_forall_ne_some.mpr fun t ht => ?_
    rw [h.writing t, hout t] at ht
    cases ht
  have hqueue : queue = [] := by
    refine List.eq_nil_iff_forall_not_mem.mpr fun x hx => ?_
    rw [h.queued x.1 x.2, hout x.1] at hx
    cases hx
  rw [hreaders, hwriter, hqueue]
  rfl

variable [DecidableEq ι]

theorem request (h : Agrees g l) (ht : g t = .out) (m : Mode) :
    Agrees (Function.update g t (.queued m)) (l.request t m) := by
  have hout : ∀ n, (t, n) ∉ l.queue := by
    intro n hn
    have := (h.queued t n).mp hn
    simp [ht] at this
  refine ⟨?_, ?_, ?_, h.exclusive, ?_⟩
  · intro u n
    by_cases hu : u = t
    · subst hu
      simp [RwLock.request, hout, eq_comm]
    · simp [RwLock.request, hu, h.queued]
  · intro u
    by_cases hu : u = t
    · subst hu
      simp [RwLock.request, h.reading, ht]
    · simp [RwLock.request, Function.update_of_ne hu, h.reading]
  · intro u
    by_cases hu : u = t
    · subst hu
      simp [RwLock.request, h.writing, ht]
    · simp [RwLock.request, Function.update_of_ne hu, h.writing]
  · have hmem : t ∉ l.queue.map Prod.fst := by
      intro hm
      obtain ⟨⟨v, n⟩, hq, rfl⟩ := List.mem_map.mp hm
      exact hout n hq
    simp only [RwLock.request, List.map_append, List.map_cons, List.map_nil]
    exact List.nodup_append.mpr ⟨h.distinct, List.nodup_singleton t, by
      intro a ha b hb
      rw [List.mem_singleton] at hb
      exact fun hab => hmem (hb ▸ hab ▸ ha)⟩

/-- Nobody but `t` is concerned when `t` is granted the lock. -/
theorem acquire (h : Agrees g l) (ha : l.acquire t m = some l') :
    Agrees (Function.update g t (.holds m)) l' := by
  obtain ⟨q, hq, hadm, rfl⟩ := RwLock.acquire_eq_some ha
  have hd := h.distinct
  rw [hq, List.map_cons, List.nodup_cons] at hd
  have htq : ∀ n, (t, n) ∉ q := fun n hn => hd.1 (List.mem_map.mpr ⟨_, hn, rfl⟩)
  have hqueue : ∀ u n, u ≠ t → ((u, n) ∈ q ↔ g u = .queued n) := by
    intro u n hu
    rw [← h.queued, hq]
    simp [hu]
  have hgt : g t = .queued m := (h.queued t m).mp (hq ▸ List.mem_cons_self)
  cases m with
  | read =>
      have hw := RwLock.admits_read.mp hadm
      refine ⟨?_, ?_, ?_, ?_, hd.2⟩
      · intro u n
        by_cases hu : u = t
        · subst hu
          simp [RwLock.grant, htq]
        · simp [RwLock.grant, hu, hqueue]
      · intro u
        by_cases hu : u = t
        · subst hu
          simp [RwLock.grant]
        · simp [RwLock.grant, hu, h.reading]
      · intro u
        by_cases hu : u = t
        · subst hu
          simp [RwLock.grant, hw]
        · simp [RwLock.grant, hu, h.writing]
      · exact fun hne => absurd hw hne
  | write =>
      obtain ⟨hw, hr⟩ := RwLock.admits_write.mp hadm
      have hno : ∀ u, g u ≠ .holds .write := fun u hu => by simpa [hw] using (h.writing u).mpr hu
      have hnr : ∀ u, g u ≠ .holds .read := fun u hu => by simpa [hr] using (h.reading u).mpr hu
      refine ⟨?_, ?_, ?_, fun _ => hr, hd.2⟩
      · intro u n
        by_cases hu : u = t
        · subst hu
          simp [RwLock.grant, htq]
        · simp [RwLock.grant, hu, hqueue]
      · intro u
        by_cases hu : u = t
        · subst hu
          simp [RwLock.grant, hr]
        · simp [RwLock.grant, hr, hu, hnr]
      · intro u
        by_cases hu : u = t
        · subst hu
          simp [RwLock.grant]
        · simp [RwLock.grant, hu, hno, Ne.symm hu]

theorem release (h : Agrees g l) (ht : g t = .holds m) :
    Agrees (Function.update g t .out) (l.release t) := by
  refine ⟨?_, ?_, ?_, ?_, h.distinct⟩
  · intro u n
    by_cases hu : u = t
    · subst hu
      simp [RwLock.release, h.queued, ht]
    · simp [RwLock.release, hu, h.queued]
  · intro u
    by_cases hu : u = t
    · subst hu
      simp [RwLock.release]
    · simp [RwLock.release, hu, h.reading]
  · intro u
    by_cases hu : u = t
    · subst hu
      simp [RwLock.release, Option.filter_eq_some_iff]
    · simp [RwLock.release, Option.filter_eq_some_iff, hu, h.writing]
  · intro hw
    have : l.writer ≠ none := by
      intro hn
      simp [RwLock.release, hn] at hw
    simp [RwLock.release, h.exclusive this]

theorem discard (h : Agrees g l) : Agrees (Function.update g t .out) (l.discard t) := by
  refine ⟨?_, ?_, ?_, ?_, ?_⟩
  · intro u n
    by_cases hu : u = t
    · subst hu
      simp [RwLock.discard]
    · simp [RwLock.discard, hu, h.queued]
  · intro u
    by_cases hu : u = t
    · subst hu
      simp [RwLock.discard, RwLock.release]
    · simp [RwLock.discard, RwLock.release, hu, h.reading]
  · intro u
    by_cases hu : u = t
    · subst hu
      simp [RwLock.discard, RwLock.release, Option.filter_eq_some_iff]
    · simp [RwLock.discard, RwLock.release, Option.filter_eq_some_iff, hu, h.writing]
  · intro hw
    have : l.writer ≠ none := by
      intro hn
      simp [RwLock.discard, RwLock.release, hn] at hw
    simp [RwLock.discard, RwLock.release, h.exclusive this]
  · exact h.distinct.sublist (List.filter_sublist.map Prod.fst)

/-- If somebody waits, then the oldest request can be granted or some thread holds a guard. -/
theorem progress (h : Agrees g l) (hq : l.queue ≠ []) :
    (∃ t m l', g t = .queued m ∧ l.acquire t m = some l') ∨ ∃ t m, g t = .holds m := by
  obtain ⟨⟨t, m⟩, q, hcons⟩ := List.exists_cons_of_ne_nil hq
  have hgt : g t = .queued m := (h.queued t m).mp (hcons ▸ List.mem_cons_self)
  by_cases hadm : l.admits m = true
  · exact .inl ⟨t, m, l.grant t q m, hgt, by simp [RwLock.acquire, hcons, hadm]⟩
  · right
    cases hw : l.writer with
    | some u => exact ⟨u, .write, (h.writing u).mp hw⟩
    | none =>
        cases hr : l.readers with
        | nil => cases m <;> simp [RwLock.admits, hw, hr] at hadm
        | cons u rs => exact ⟨u, .read, (h.reading u).mp (hr ▸ List.mem_cons_self)⟩

end Agrees
end FifoLock
