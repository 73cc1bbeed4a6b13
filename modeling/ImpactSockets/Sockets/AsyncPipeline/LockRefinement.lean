import ImpactSockets.Sockets.AsyncPipeline.Accounting
import ImpactSockets.Sockets.AsyncPipeline.LockViews
import Mathlib.Data.Finset.Card

/-! The pipeline with its locks refines the pipeline whose steps are critical sections:
each run of the threads is a run of that one, with every section where its thread has
the mutex. -/
namespace ImpactSockets.AsyncPipeline.Locks

open Transition Monitor

variable {ι Object : Type} {s t : Threads ι Object} {action : Action ι Object}

/-- Where the worker of the other pipeline is. The test of the predicate is its wake. -/
def Worker.atomic (closing : Bool) : Worker → AsyncPipeline.Worker
  | .entering | .testing | .blocking | .asleep | .woken | .written => .waiting
  | .holding => if closing then .finished else .woken
  | .starting | .draining => .woken
  | .drained satisfied | .polling satisfied => .polling satisfied
  | .updating satisfied cursor => .updating satisfied cursor
  | .storing satisfied hasWork | .writing satisfied hasWork => .storing satisfied hasWork
  | .finished => .finished
  | .faulted => .faulted

/-- The client has pushed its request and has not counted it yet. -/
def Client.InFlight : Client Object → Prop
  | .requested | .pushed | .counting => True
  | _ => False

/-- The members of the pipeline without its locks. -/
def pipeline (s : Threads ι Object) (notifying : Nat) : Pipeline Object where
  threadClosing := s.threadClosing
  threadHasWork := s.threadHasWork
  threadPending := s.threadPending
  work := s.work
  workPending := s.workPending
  workRemoved := s.workRemoved
  worker := s.worker.atomic s.threadClosing
  notifying := notifying

/-- The threads are at a point of the other pipeline. -/
structure Refines (s : Threads ι Object) (p : Pipeline Object) : Prop where
  accepted : ∀ q request, s.client q = .requesting request → request.Accepted
  members : ∃ inFlight : Finset ι, (∀ q, q ∈ inFlight ↔ (s.client q).InFlight) ∧ p = pipeline s inFlight.card

/-- The critical sections that a step of the threads completes. -/
def sections (s : Threads ι Object) : Action ι Object → List (AsyncPipeline.Action Object)
  | .push p =>
      match s.client p with
      | .requesting (.add socket object) => [.pushAdd socket object]
      | .requesting (.remove socket) => [.pushRemove socket]
      | _ => []
  | .count _ => [.notifyPending]
  | .mark _ => [.notify]
  | .test => if waitPredicate s then [.wake] else []
  | .drain => [.drain]
  | .poll revents => [.poll revents]
  | .callback answer => [.callback answer]
  | .endUpdate => [.endUpdate]
  | .store => [.store]
  | .endSet => [.close]
  | _ => []

theorem refines_init : Refines (init : Threads ι Object) AsyncPipeline.init :=
  ⟨nofun, ∅, by simp [init, Client.InFlight], rfl⟩

/-- A step that completes no section and leaves every request where it was. -/
theorem Refines.stay {p : Pipeline Object} (hs : Refines s p)
    (hAccepted : ∀ q request, t.client q = .requesting request → request.Accepted)
    (hInFlight : ∀ q, (t.client q).InFlight ↔ (s.client q).InFlight) (hSame : ∀ n, pipeline t n = pipeline s n) :
    Refines t p := by
  obtain ⟨inFlight, hMem, rfl⟩ := hs.members
  exact ⟨hAccepted, inFlight, fun q => (hMem q).trans (hInFlight q).symm, (hSame _).symm⟩

/-- A step of the worker or the destructor that completes one section. -/
theorem Refines.completes {p : Pipeline Object} {completed : AsyncPipeline.Action Object} (hs : Refines s p)
    (hClient : t.client = s.client)
    (hStep : ∀ n, AsyncPipeline.step (pipeline s n) completed = some (pipeline t n)) :
    ∃ p', Runs AsyncPipeline.step p [completed] p' ∧ Refines t p' := by
  obtain ⟨inFlight, hMem, rfl⟩ := hs.members
  refine ⟨pipeline t inFlight.card, Runs.nil.snoc (hStep _), ?_, inFlight, ?_, rfl⟩
  · rw [hClient]
    exact hs.accepted
  · rw [hClient]
    exact hMem

theorem pipeline_notifyCv (s : Threads ι Object) (n : Nat) : pipeline (notifyCv s) n = pipeline s n := by
  unfold notifyCv
  split_ifs with hAsleep
  · simp [pipeline, hAsleep, Worker.atomic]
  · rfl

theorem client_notifyCv (s : Threads ι Object) : (notifyCv s).client = s.client := by
  unfold notifyCv
  split_ifs <;> rfl

variable [DecidableEq ι]

/-- A client that has moved, and the requests that are accepted. -/
theorem Refines.accepted_move {p : Pipeline Object} (hs : Refines s p) {q : ι} {client : Client Object}
    (hClient : t.client = Function.update s.client q client)
    (hNew : ∀ request, client = .requesting request → request.Accepted) :
    ∀ r request, t.client r = .requesting request → request.Accepted := by
  intro r request hRequesting
  rcases eq_or_ne r q with rfl | hNe
  · exact hNew request (by simpa [hClient] using hRequesting)
  · exact hs.accepted r request (by simpa [hClient, hNe] using hRequesting)

/-- A client moves on without a critical section. -/
theorem Refines.move {p : Pipeline Object} (hs : Refines s p) {q : ι} {client : Client Object}
    (hClient : t.client = Function.update s.client q client)
    (hNew : ∀ request, client = .requesting request → request.Accepted)
    (hInFlight : client.InFlight ↔ (s.client q).InFlight) (hSame : ∀ n, pipeline t n = pipeline s n) : Refines t p := by
  refine hs.stay (hs.accepted_move hClient hNew) (fun r => ?_) hSame
  rcases eq_or_ne r q with rfl | hNe
  · simpa [hClient] using hInFlight
  · simp [hClient, hNe]

/-- A push, which makes one more client that is still to count. -/
theorem Refines.push {p : Pipeline Object} {q : ι} {request : Request Object} (hs : Refines s p)
    (hClient : s.client q = .requesting request) :
    ∃ p', Runs AsyncPipeline.step p (sections s (.push q)) p' ∧
      Refines (Locks.push request (s.move q .requested)) p' := by
  obtain ⟨inFlight, hMem, rfl⟩ := hs.members
  have hNew : q ∉ inFlight := by simp [hMem, hClient, Client.InFlight]
  have hAccepted := hs.accepted q request hClient
  have hMoved : (Locks.push request (s.move q .requested)).client = Function.update s.client q .requested := by
    cases request <;> rfl
  refine ⟨pipeline (Locks.push request (s.move q .requested)) (insert q inFlight).card, ?_,
    hs.accepted_move hMoved (by simp), insert q inFlight, fun r => ?_, rfl⟩
  · rw [Finset.card_insert_of_notMem hNew]
    simp only [sections, hClient]
    cases request with
    | add socket object => exact Runs.nil.snoc (pushAdd_eq_some.mpr ⟨hAccepted, rfl⟩)
    | remove socket => exact Runs.nil.snoc (pushRemove_eq_some.mpr ⟨hAccepted, rfl⟩)
  · rcases eq_or_ne r q with rfl | hNe
    · simp [hMoved, Client.InFlight]
    · simp [hMoved, hNe, hMem]

/-- `_M_notify_pending`, after which the client has counted. -/
theorem Refines.count {p : Pipeline Object} {q : ι} (hs : Refines s p) (hClient : s.client q = .counting) :
    ∃ p', Runs AsyncPipeline.step p (sections s (.count q)) p' ∧
      Refines { s.move q .counted with threadPending := s.threadPending + 1 } p' := by
  obtain ⟨inFlight, hMem, rfl⟩ := hs.members
  have hOld : q ∈ inFlight := by simp [hMem, hClient, Client.InFlight]
  refine ⟨pipeline { s.move q .counted with threadPending := s.threadPending + 1 } (inFlight.erase q).card, ?_,
    hs.accepted_move rfl (by simp), inFlight.erase q, fun r => ?_, rfl⟩
  · rw [Finset.card_erase_of_mem hOld]
    exact Runs.nil.snoc (notifyPending_eq_some.mpr ⟨Finset.card_ne_zero_of_mem hOld, rfl⟩)
  · rcases eq_or_ne r q with rfl | hNe
    · simp [Threads.move, Client.InFlight]
    · simp [Threads.move, hNe, hMem]

/-- The assignment of `notify`. -/
theorem Refines.mark {p : Pipeline Object} {q : ι} (hs : Refines s p) (hClient : s.client q = .marking) :
    ∃ p', Runs AsyncPipeline.step p (sections s (.mark q)) p' ∧
      Refines { s.move q .marked with threadHasWork := true } p' := by
  obtain ⟨inFlight, hMem, rfl⟩ := hs.members
  refine ⟨pipeline { s.move q .marked with threadHasWork := true } inFlight.card, Runs.nil.snoc rfl,
    hs.accepted_move rfl (by simp), inFlight, fun r => ?_, rfl⟩
  rcases eq_or_ne r q with rfl | hNe
  · simp [Threads.move, hMem, hClient, Client.InFlight]
  · simp [Threads.move, hNe, hMem]

/-- Each step of the threads completes its sections in the other pipeline. -/
theorem Refines.step {p : Pipeline Object} (hs : Refines s p) (sound : Monitor.Sound .worker (view .request s))
    (h : Steps s action t) : ∃ p', Runs AsyncPipeline.step p (sections s action) p' ∧ Refines t p' := by
  cases h with
  | request q request hClient hAccepted =>
      refine ⟨p, Runs.nil, hs.move rfl (by simpa using hAccepted) ?_ fun _ => rfl⟩
      simp [hClient, Client.InFlight]
  | push q request hClient => exact hs.push hClient
  | count q hClient => exact hs.count hClient
  | mark q hClient => exact hs.mark hClient
  | release q hClient | enterCount q hClient | enterMark q hClient =>
      exact ⟨p, Runs.nil, hs.move rfl (by simp) (by simp [hClient, Client.InFlight]) fun _ => rfl⟩
  | leave q hClient =>
      refine ⟨p, Runs.nil, hs.move rfl (by simp) ?_ fun _ => rfl⟩
      rcases hClient with hClient | hClient <;> simp [hClient, Client.InFlight]
  | signal q hClient =>
      refine ⟨p, Runs.nil, hs.move (client_notifyCv _) (by simp) ?_ fun n => pipeline_notifyCv _ n⟩
      simp [hClient, Client.InFlight]
  | enter hWorker =>
      refine ⟨p, Runs.nil, hs.stay hs.accepted (fun _ => Iff.rfl) fun _ => ?_⟩
      rcases hWorker with hWorker | hWorker <;> simp [pipeline, hWorker, Worker.atomic]
  | testFalse hWorker hReady =>
      simp only [sections, hReady]
      exact ⟨p, Runs.nil, hs.stay hs.accepted (fun _ => Iff.rfl) fun _ => by simp [pipeline, hWorker, Worker.atomic]⟩
  | sleep hWorker | spurious hWorker | enterDrain hWorker | leaveDrain satisfied hWorker
  | enterStore satisfied hasWork hWorker | leaveStore hWorker =>
      exact ⟨p, Runs.nil, hs.stay hs.accepted (fun _ => Iff.rfl) fun _ => by simp [pipeline, hWorker, Worker.atomic]⟩
  | finish hWorker hClosing | proceed hWorker hClosing =>
      exact ⟨p, Runs.nil, hs.stay hs.accepted (fun _ => Iff.rfl)
        fun _ => by simp [pipeline, hWorker, hClosing, Worker.atomic]⟩
  | endLock hEnder | endUnlock hEnder | endJoin hEnder =>
      exact ⟨p, Runs.nil, hs.stay hs.accepted (fun _ => Iff.rfl) fun _ => rfl⟩
  | endNotify hEnder =>
      refine ⟨p, Runs.nil, hs.stay ?_ (fun _ => ?_) fun n => pipeline_notifyCv _ n⟩
      · rw [client_notifyCv]
        exact hs.accepted
      · rw [client_notifyCv]
  | testTrue hWorker hReady =>
      simp only [sections, hReady]
      refine hs.completes rfl fun n => wake_eq_some.mpr ⟨?_, hReady, rfl⟩
      simp [pipeline, hWorker, Worker.atomic]
  | drain work hWorker hWork =>
      refine hs.completes rfl fun n => drain_eq_some.mpr ⟨?_, .inr ⟨work, hWork, rfl⟩⟩
      simp [pipeline, hWorker, Worker.atomic]
  | drainFault hWorker hWork =>
      refine hs.completes rfl fun n => drain_eq_some.mpr ⟨?_, .inl ⟨hWork, rfl⟩⟩
      simp [pipeline, hWorker, Worker.atomic]
  | poll revents satisfied hWorker =>
      refine hs.completes rfl fun n => poll_eq_some.mpr ⟨satisfied, ?_, rfl⟩
      simp [pipeline, hWorker, Worker.atomic]
  | callback answer satisfied cursor next key work hWorker hKey hWork =>
      refine hs.completes rfl fun n => callback_eq_some.mpr ⟨satisfied, cursor, key, ?_, hKey,
        .inr ⟨work, next, hWork, rfl⟩⟩
      simp [pipeline, hWorker, Worker.atomic]
  | callbackFault answer satisfied cursor key hWorker hKey hWork =>
      refine hs.completes rfl fun n => callback_eq_some.mpr ⟨satisfied, cursor, key, ?_, hKey, .inl ⟨hWork, rfl⟩⟩
      simp [pipeline, hWorker, Worker.atomic]
  | endUpdate satisfied cursor hWorker hEnd =>
      refine hs.completes rfl fun n => endUpdate_eq_some.mpr ⟨satisfied, cursor, ?_, not_lt.mp hEnd, rfl⟩
      simp [pipeline, hWorker, Worker.atomic]
  | store satisfied hasWork hWorker =>
      refine hs.completes rfl fun n => store_eq_some.mpr ⟨satisfied, hasWork, ?_, rfl⟩
      simp [pipeline, hWorker, Worker.atomic]
  | endSet hEnder =>
      -- The destructor has the mutex, so the worker is not between its test and what follows.
      have hInside : ((view .request s).place .ender).Holds := .inl (by simp [view, place, hEnder, Ender.place])
      have hHolding : s.worker ≠ .holding := by
        intro hWorker
        have hToo : ((view .request s).place .worker).Holds := .inl (by simp [view, place, hWorker, Worker.place])
        cases sound.exclusive hInside hToo
      refine hs.completes rfl fun n => ?_
      cases hWorker : s.worker <;> simp_all [AsyncPipeline.step, close, pipeline, Worker.atomic]

/-- Every run of the threads is a run of the critical sections it completes. -/
theorem locks_refine {actions : List (Action ι Object)} (run : Runs step init actions s) :
    ∃ p, Runs AsyncPipeline.step AsyncPipeline.init (matched step sections init actions) p ∧ Refines s p := by
  refine run.simulate refines_init ?_
  intro actions action s t p prior h _ hs
  exact hs.step (view_sound .request prior) (steps_of_step h)

/-- Two clients in their calls while the worker makes a pass. -/
def busyRun : List (Action Bool Unit) :=
  [.request true (.add 5 ()), .push true, .release true, .enterCount true, .request false (.remove 5), .count true,
    .leave true, .enter, .test, .push false, .release false, .proceed, .enterDrain, .drain]

theorem locks_refine_busyRun :
    ∃ s : Threads Bool Unit, Runs step init busyRun s ∧
      ∃ p, Runs AsyncPipeline.step AsyncPipeline.init (matched step sections init busyRun) p ∧ Refines s p :=
  ⟨_, runs_iff_foldlM.mpr rfl, locks_refine (runs_iff_foldlM.mpr rfl)⟩

/-- The critical sections of that run, in their order. -/
example : (matched step sections init busyRun).length = 5 := rfl

end ImpactSockets.AsyncPipeline.Locks
