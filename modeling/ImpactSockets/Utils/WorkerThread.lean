import Mathlib.Logic.Function.Basic
import ImpactSockets.Library.Transition

/-! The worker thread of `utils/worker_thread.cpp` and the producers of a subclass. Each
step is what one thread does while it holds a mutex, or between two of its calls. -/
namespace ImpactSockets.WorkerThread

open Transition

/-- Where the worker is in the loop of `_M_begin`. -/
inductive Worker where
  | entering
  /-- It holds `m_thread_mtx_` and is about to evaluate the predicate. -/
  | testing
  /-- The predicate was false. `wait` is about to release the mutex and to sleep. -/
  | blocking
  | asleep
  /-- It is about to lock the mutex again. -/
  | woken
  /-- `wait` has returned. -/
  | holding
  /-- It has released the mutex and is about to call `_M_dowork`. -/
  | starting
  | working
  | finished
deriving DecidableEq, Repr

/-- Where a producer is in its call. The mutex is the one of the subclass, and the call
of `_M_notify_one` comes before or after it is released. -/
inductive Producer where
  | outside
  | locked
  | changed
  | notified
  | released
deriving DecidableEq, Repr

/-- Where `_M_end` is. -/
inductive Ender where
  | outside
  | locked
  | set
  | unlocked
  | joining
deriving DecidableEq, Repr

/-- Who holds `m_thread_mtx_`. -/
inductive Holder where
  | worker
  | ender
deriving DecidableEq, Repr

variable {ι : Type}

/-- The members of `worker_thread`, what `_M_has_work` would return, the mutex of the
subclass, and where the threads are. -/
structure Threads (ι : Type) where
  shuttingDown : Bool
  hasWork : Bool
  threadMtx : Option Holder
  varMtx : Option ι
  worker : Worker
  producer : ι → Producer
  ender : Ender

/-- The state the constructor leaves, with the worker in front of its first lock. -/
def init : Threads ι where
  shuttingDown := false
  hasWork := false
  threadMtx := none
  varMtx := none
  worker := .entering
  producer := fun _ => .outside
  ender := .outside

/-- The steps of the producers, of the worker and of `_M_end`. `spurious` wakes the worker
without a notification. -/
inductive Action (ι : Type) where
  | lock (p : ι)
  | change (p : ι)
  | notify (p : ι)
  | unlock (p : ι)
  | enter
  | test
  | sleep
  | spurious
  | proceed
  | begin
  | work (left : Bool)
  | loop
  | endLock
  | endSet
  | endUnlock
  | endNotify

/-- `m_thread_cv_.notify_one()`. -/
def notifyOne (s : Threads ι) : Threads ι :=
  if s.worker = .asleep then { s with worker := .woken } else s

/-- The worker sleeps on although there is work: nobody is about to wake it, no producer
is in its call, and the thread is not shutting down. -/
def Lost (s : Threads ι) : Prop :=
  s.worker = .asleep ∧ s.hasWork = true ∧ (∀ p, s.producer p = .outside) ∧ s.shuttingDown = false

/-- The producer has made work and is still to notify. -/
def Producer.Pending (producer : Producer) : Prop := producer = .changed ∨ producer = .released

/-- Work that the worker has not seen will be announced. -/
def Announced (s : Threads ι) : Prop :=
  s.worker = .blocking ∨ s.worker = .asleep → s.hasWork = true → s.shuttingDown = false → ∃ p, (s.producer p).Pending

/-- No producer notifies between an evaluation of the predicate and the sleep that
follows it, unless there is no work left. -/
def NotifiesInTime (s : Threads ι) (action : Action ι) : Prop :=
  ∀ p, action = .notify p → ¬(s.worker = .blocking ∧ s.hasWork = true)

theorem not_lost_of_announced {s : Threads ι} (announced : Announced s) : ¬Lost s := by
  rintro ⟨hAsleep, hWork, hOutside, hShutting⟩
  obtain ⟨p, hPending⟩ := announced (.inr hAsleep) hWork hShutting
  rw [hOutside] at hPending
  rcases hPending with h | h <;> cases h

/-- A notification that finds the worker awake changes nothing. -/
theorem notifyOne_of_ne {s : Threads ι} (h : s.worker ≠ .asleep) : notifyOne s = s := if_neg h

/-- After a notification no work is waiting for one, unless the worker was about to sleep. -/
theorem announced_notifyOne {s : Threads ι} (hBlocking : s.worker = .blocking → s.hasWork = true →
    s.shuttingDown = false → ∃ p, (s.producer p).Pending) : Announced (notifyOne s) := by
  intro hWorker hWork hShutting
  have hNe : s.worker ≠ .asleep := by
    intro hAsleep
    simp [notifyOne, hAsleep] at hWorker
  rw [notifyOne_of_ne hNe] at *
  exact hBlocking (hWorker.resolve_right hNe) hWork hShutting

variable [DecidableEq ι]

/-- A producer is elsewhere in its call. -/
def Threads.move (s : Threads ι) (p : ι) (producer : Producer) : Threads ι :=
  { s with producer := Function.update s.producer p producer }

/-- One step. `guarded` says whether `_M_has_work` locks the mutex of the subclass. -/
def step (guarded : Bool) (s : Threads ι) : Action ι → Option (Threads ι)
  | .lock p =>
      if s.producer p = .outside ∧ s.varMtx.isNone then some { s.move p .locked with varMtx := some p } else none
  | .change p => if s.producer p = .locked then some { s.move p .changed with hasWork := true } else none
  | .notify p =>
      match s.producer p with
      | .changed => some (notifyOne (s.move p .notified))
      | .released => some (notifyOne (s.move p .outside))
      | _ => none
  | .unlock p =>
      match s.producer p with
      | .changed => some { s.move p .released with varMtx := none }
      | .notified => some { s.move p .outside with varMtx := none }
      | _ => none
  | .enter =>
      if (s.worker = .entering ∨ s.worker = .woken) ∧ s.threadMtx.isNone then
        some { s with worker := .testing, threadMtx := some .worker }
      else none
  | .test =>
      if s.worker = .testing then
        if s.shuttingDown then some { s with worker := .holding }
        else if guarded ∧ s.varMtx.isSome then none
        else some { s with worker := if s.hasWork then .holding else .blocking }
      else none
  | .sleep => if s.worker = .blocking then some { s with worker := .asleep, threadMtx := none } else none
  | .spurious => if s.worker = .asleep then some { s with worker := .woken } else none
  | .proceed =>
      if s.worker = .holding then
        some { s with worker := if s.shuttingDown then .finished else .starting, threadMtx := none }
      else none
  | .begin => if s.worker = .starting then some { s with worker := .working } else none
  | .work left => if s.worker = .working then some { s with hasWork := left } else none
  | .loop =>
      if s.worker = .working then some { s with worker := if s.shuttingDown then .finished else .entering } else none
  | .endLock =>
      if s.ender = .outside ∧ s.threadMtx.isNone then some { s with ender := .locked, threadMtx := some .ender } else none
  | .endSet => if s.ender = .locked then some { s with ender := .set, shuttingDown := true } else none
  | .endUnlock => if s.ender = .set then some { s with ender := .unlocked, threadMtx := none } else none
  | .endNotify => if s.ender = .unlocked then some (notifyOne { s with ender := .joining }) else none

/-- The step of a producer leaves work announced if the producer stays pending. -/
theorem exists_pending_move {s : Threads ι} {p : ι} {producer : Producer}
    (h : ∃ q, (s.producer q).Pending) (hMove : (s.producer p).Pending → producer.Pending) :
    ∃ q, ((s.move p producer).producer q).Pending := by
  obtain ⟨q, hq⟩ := h
  refine ⟨q, ?_⟩
  rcases eq_or_ne q p with rfl | hNe
  · simpa [Threads.move] using hMove hq
  · simpa [Threads.move, Function.update_of_ne hNe] using hq

/-- A step that notifies in time keeps work announced. -/
theorem announced_step {guarded : Bool} {s t : Threads ι} {action : Action ι} (announced : Announced s)
    (inTime : NotifiesInTime s action) (h : step guarded s action = some t) : Announced t := by
  cases action with
  | lock p =>
      obtain ⟨⟨hOutside, -⟩, rfl⟩ := by simpa [step] using h
      intro hWorker hWork hShutting
      refine exists_pending_move (announced hWorker hWork hShutting) fun hPending => ?_
      simp [hOutside, Producer.Pending] at hPending
  | change p =>
      obtain ⟨-, rfl⟩ := by simpa [step] using h
      intro _ _ _
      exact ⟨p, by simp [Threads.move, Producer.Pending]⟩
  | notify p =>
      have hBlocking := inTime p rfl
      simp only [step] at h
      split at h <;> cases h <;>
        exact announced_notifyOne fun hWorker hWork _ => absurd ⟨hWorker, hWork⟩ hBlocking
  | unlock p =>
      simp only [step] at h
      split at h
      · cases h
        intro hWorker hWork hShutting
        exact exists_pending_move (announced hWorker hWork hShutting) fun _ => .inr rfl
      · next hNotified =>
          cases h
          intro hWorker hWork hShutting
          refine exists_pending_move (announced hWorker hWork hShutting) fun hPending => ?_
          simp [hNotified, Producer.Pending] at hPending
      · cases h
  | enter =>
      obtain ⟨-, rfl⟩ := by simpa [step] using h
      simp [Announced]
  | test =>
      -- The worker goes to sleep only if it has found no work.
      simp only [step] at h
      split_ifs at h <;> cases h <;> simp_all [Announced]
  | sleep =>
      obtain ⟨hBlocking, rfl⟩ := by simpa [step] using h
      exact fun _ => announced (.inl hBlocking)
  | spurious =>
      obtain ⟨-, rfl⟩ := by simpa [step] using h
      simp [Announced]
  | proceed =>
      simp only [step] at h
      split_ifs at h <;> cases h <;> simp [Announced]
  | begin =>
      obtain ⟨-, rfl⟩ := by simpa [step] using h
      simp [Announced]
  | work left =>
      obtain ⟨hWorking, rfl⟩ := by simpa [step] using h
      simp [Announced, hWorking]
  | loop =>
      simp only [step] at h
      split_ifs at h <;> cases h <;> simp [Announced]
  | endLock =>
      obtain ⟨-, rfl⟩ := by simpa [step] using h
      exact announced
  | endSet =>
      obtain ⟨-, rfl⟩ := by simpa [step] using h
      simp [Announced]
  | endUnlock =>
      obtain ⟨-, rfl⟩ := by simpa [step] using h
      exact announced
  | endNotify =>
      obtain ⟨-, rfl⟩ := by simpa [step] using h
      exact announced_notifyOne fun hWorker => announced (.inl hWorker)

end ImpactSockets.WorkerThread
