import ImpactSockets.Sockets.AsyncPipeline

/-! The asynchronous pipeline with its locks: `m_work_mtx_`, `m_thread_mtx_` and
`m_thread_cv_`, the worker thread of `_M_begin`, any number of clients, and the
destructor. Each step is what one thread does between two of its operations on them. -/
namespace ImpactSockets.AsyncPipeline.Locks

/-- Where the worker is in the loop of `_M_begin` and in `_M_dowork`. -/
inductive Worker where
  | entering
  /-- It holds `m_thread_mtx_` and is about to evaluate the predicate. -/
  | testing
  /-- The predicate was false. `wait` is about to release the mutex and to sleep. -/
  | blocking
  | asleep
  /-- It is about to lock the mutex again. -/
  | woken
  /-- `wait` has returned. -/
  | holding
  | starting
  /-- The worker locked scope, before and after the queues have been emptied. -/
  | draining
  | drained (pendingSatisfied : Int)
  | polling (pendingSatisfied : Int)
  | updating (pendingSatisfied : Int) (cursor : Cursor)
  | storing (pendingSatisfied : Int) (hasWork : Bool)
  /-- The thread locked scope, before and after the members are written. -/
  | writing (pendingSatisfied : Int) (hasWork : Bool)
  | written
  | finished
  | faulted
deriving DecidableEq, Repr

/-- What `add_object` or `remove_object` pushes. -/
inductive Request (Object : Type) where
  | add (socket : Int) (object : Object)
  | remove (socket : Int)

/-- Where a client is in `add_object`, `remove_object` or `notify`. -/
inductive Client (Object : Type) where
  | outside
  /-- It holds `m_work_mtx_`, before and after the push. -/
  | requesting (request : Request Object)
  | requested
  | pushed
  /-- It holds `m_thread_mtx_` in `_M_notify_pending`, before and after the sum. -/
  | counting
  | counted
  /-- It holds `m_thread_mtx_` in `notify`, before and after the assignment. -/
  | marking
  | marked
  | signalling

/-- Where the destructor is in `_M_end`. -/
inductive Ender where
  | outside
  | locked
  | set
  | unlocked
  | joining
  | joined
deriving DecidableEq, Repr

/-- The threads of the program. -/
inductive Thread (ι : Type) where
  | worker
  | client (p : ι)
  | ender
deriving DecidableEq, Repr

variable {ι Object : Type}

/-- The members of `async_pipeline`, the holders of its mutexes, and where the threads are. -/
structure Threads (ι Object : Type) where
  threadClosing : Bool
  threadHasWork : Bool
  threadPending : Int
  work : Work Object
  workPending : List (Int × Object)
  workRemoved : List Int
  threadMtx : Option (Thread ι)
  workMtx : Option (Thread ι)
  worker : Worker
  client : ι → Client Object
  ender : Ender

/-- The state the constructor leaves, with the worker in front of its first lock. -/
def init : Threads ι Object where
  threadClosing := false
  threadHasWork := false
  threadPending := 0
  work := ⟨[], fun _ => none⟩
  workPending := []
  workRemoved := []
  threadMtx := none
  workMtx := none
  worker := .entering
  client := fun _ => .outside
  ender := .outside

/-- The predicate that `_M_begin` passes to `wait`. -/
def waitPredicate (s : Threads ι Object) : Bool :=
  s.threadClosing || s.threadHasWork || decide (0 < s.threadPending)

/-- `m_thread_cv_.notify_one()` and `notify_all()`: only the worker waits. -/
def notifyCv (s : Threads ι Object) : Threads ι Object :=
  if s.worker = .asleep then { s with worker := .woken } else s

/-- A negative socket throws before any lock. -/
def Request.Accepted : Request Object → Prop
  | .add socket _ => 0 ≤ socket
  | .remove socket => 0 ≤ socket

instance (request : Request Object) : Decidable request.Accepted := by
  cases request <;> exact inferInstanceAs (Decidable (0 ≤ _))

/-- `push_back` on the queue of the request. -/
def push (request : Request Object) (s : Threads ι Object) : Threads ι Object :=
  match request with
  | .add socket object => { s with workPending := s.workPending ++ [(socket, object)] }
  | .remove socket => { s with workRemoved := s.workRemoved ++ [socket] }

/-- The steps of the clients, of the worker and of the destructor. `spurious` wakes the
worker without a signal. -/
inductive Action (ι Object : Type) where
  | request (p : ι) (request : Request Object)
  | push (p : ι)
  | release (p : ι)
  | enterCount (p : ι)
  | count (p : ι)
  | enterMark (p : ι)
  | mark (p : ι)
  | leave (p : ι)
  | signal (p : ι)
  | enter
  | test
  | sleep
  | spurious
  | proceed
  | enterDrain
  | drain
  | leaveDrain
  | poll (revents : PollHandle → Int)
  | callback (answer : Answer)
  | endUpdate
  | enterStore
  | store
  | leaveStore
  | endLock
  | endSet
  | endUnlock
  | endNotify
  | endJoin

variable [DecidableEq ι]

/-- A client is elsewhere in its call. -/
def Threads.move (s : Threads ι Object) (p : ι) (client : Client Object) : Threads ι Object :=
  { s with client := Function.update s.client p client }

def step (s : Threads ι Object) : Action ι Object → Option (Threads ι Object)
  | .request p request =>
      match s.client p with
      | .outside =>
          if request.Accepted ∧ s.workMtx.isNone then
            some { s.move p (.requesting request) with workMtx := some (.client p) }
          else none
      | _ => none
  | .push p =>
      match s.client p with
      | .requesting request => some (push request (s.move p .requested))
      | _ => none
  | .release p =>
      match s.client p with
      | .requested => some { s.move p .pushed with workMtx := none }
      | _ => none
  | .enterCount p =>
      match s.client p with
      | .pushed => if s.threadMtx.isNone then some { s.move p .counting with threadMtx := some (.client p) } else none
      | _ => none
  | .count p =>
      match s.client p with
      | .counting => some { s.move p .counted with threadPending := s.threadPending + 1 }
      | _ => none
  | .enterMark p =>
      match s.client p with
      | .outside => if s.threadMtx.isNone then some { s.move p .marking with threadMtx := some (.client p) } else none
      | _ => none
  | .mark p =>
      match s.client p with
      | .marking => some { s.move p .marked with threadHasWork := true }
      | _ => none
  | .leave p =>
      match s.client p with
      | .counted | .marked => some { s.move p .signalling with threadMtx := none }
      | _ => none
  | .signal p =>
      match s.client p with
      | .signalling => some (notifyCv (s.move p .outside))
      | _ => none
  | .enter =>
      if (s.worker = .entering ∨ s.worker = .woken) ∧ s.threadMtx.isNone then
        some { s with worker := .testing, threadMtx := some .worker }
      else none
  | .test =>
      if s.worker = .testing then some { s with worker := if waitPredicate s then .holding else .blocking } else none
  | .sleep => if s.worker = .blocking then some { s with worker := .asleep, threadMtx := none } else none
  | .spurious => if s.worker = .asleep then some { s with worker := .woken } else none
  | .proceed =>
      if s.worker = .holding then
        some { s with worker := if s.threadClosing then .finished else .starting, threadMtx := none }
      else none
  | .enterDrain =>
      if s.worker = .starting ∧ s.workMtx.isNone then
        some { s with worker := .draining, workMtx := some .worker }
      else none
  | .drain =>
      if s.worker = .draining then
        match removePendingFromQueue s.workRemoved (copyPendingToQueue s.workPending s.work) with
        | none => some { s with worker := .faulted }
        | some work => some { s with
            work := work
            workPending := []
            workRemoved := []
            worker := .drained (s.workPending.length + s.workRemoved.length) }
      else none
  | .leaveDrain =>
      match s.worker with
      | .drained satisfied => some { s with worker := .polling satisfied, workMtx := none }
      | _ => none
  | .poll revents =>
      match s.worker with
      | .polling satisfied => some { s with
          work := { s.work with
            handles := s.work.handles.map fun handle =>
              { handle with returnEvents := revents handle } }
          worker := .updating satisfied ⟨0, 0⟩ }
      | _ => none
  | .callback answer =>
      match s.worker with
      | .updating satisfied cursor =>
          match s.work.handles[cursor.i]? with
          | none => none
          | some key =>
              match updateHandle answer s.work cursor key with
              | none => some { s with worker := .faulted }
              | some (work, next) => some { s with work := work, worker := .updating satisfied next }
      | _ => none
  | .endUpdate =>
      match s.worker with
      | .updating satisfied cursor =>
          if cursor.i < s.work.handles.length then none
          else some { s with worker := .storing satisfied (cursor.ignored ≠ s.work.handles.length) }
      | _ => none
  | .enterStore =>
      match s.worker with
      | .storing satisfied hasWork =>
          if s.threadMtx.isNone then
            some { s with worker := .writing satisfied hasWork, threadMtx := some .worker }
          else none
      | _ => none
  | .store =>
      match s.worker with
      | .writing satisfied hasWork => some { s with
          threadHasWork := hasWork
          threadPending := s.threadPending - satisfied
          worker := .written }
      | _ => none
  | .leaveStore => if s.worker = .written then some { s with worker := .entering, threadMtx := none } else none
  | .endLock =>
      if s.ender = .outside ∧ s.threadMtx.isNone then
        some { s with ender := .locked, threadMtx := some .ender }
      else none
  | .endSet => if s.ender = .locked then some { s with ender := .set, threadClosing := true } else none
  | .endUnlock => if s.ender = .set then some { s with ender := .unlocked, threadMtx := none } else none
  | .endNotify => if s.ender = .unlocked then some (notifyCv { s with ender := .joining }) else none
  | .endJoin => if s.ender = .joining ∧ s.worker = .finished then some { s with ender := .joined } else none

end ImpactSockets.AsyncPipeline.Locks
