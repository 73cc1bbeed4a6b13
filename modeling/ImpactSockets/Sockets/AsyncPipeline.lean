import ImpactSockets.Library.Transition
import Mathlib.Logic.Function.Basic

/-! The asynchronous pipeline, `sockets/async_pipeline.cpp`: the queues that
clients fill, the pass the worker thread makes over them, and the steps in
which the two sides interleave. Each step is one critical section, or the part
of a pass between two of them. -/
namespace ImpactSockets.AsyncPipeline

/-- `impact::poll_handle`. A socket that is being ignored has its sign flipped. -/
structure PollHandle where
  socket : Int
  events : Int
  returnEvents : Int
deriving DecidableEq, Repr

/-- `poll_flags::IN`. -/
def pollIn : Int := 1

/-- `async_option`. -/
inductive AsyncOption where
  | continue_
  | ignore
  | quit
deriving DecidableEq, Repr

/-- What a callback does: the option it returns and the `events` it leaves in
the handle it is given. Callbacks do not modify `handle->socket`. -/
structure Answer where
  option : AsyncOption
  events : Int
deriving DecidableEq, Repr

variable {Object : Type}

/-- `m_work_handles_` and `m_work_info_`, which only the worker touches. -/
structure Work (Object : Type) where
  handles : List PollHandle
  info : Int → Option Object

/-- `std::abs(handle.socket)`. -/
def PollHandle.absSocket (handle : PollHandle) : Int := handle.socket.natAbs

/-- The body of the loop in `_M_copy_pending_to_queue`. -/
def copyToken (work : Work Object) (token : Int × Object) : Work Object :=
  match work.info token.1 with
  | none =>
      { handles := work.handles ++ [⟨token.1, pollIn, 0⟩]
        info := Function.update work.info token.1 (some token.2) }
  | some _ => { work with info := Function.update work.info token.1 (some token.2) }

def copyPendingToQueue (pending : List (Int × Object)) (work : Work Object) : Work Object :=
  pending.foldl copyToken work

/-- The body of the loop in `_M_remove_pending_from_queue`. `none` is an
erase through the end iterator of `m_work_info_`. -/
def removeToken (work : Work Object) (token : Int) : Option (Work Object) :=
  match work.handles.find? (fun handle => handle.absSocket == token) with
  | none => some work
  | some handle =>
      match work.info handle.absSocket with
      | none => none
      | some _ => some
          { handles := work.handles.eraseP (fun handle => handle.absSocket == token)
            info := Function.update work.info handle.absSocket none }

def removePendingFromQueue (removed : List Int) (work : Work Object) : Option (Work Object) :=
  removed.foldlM removeToken work

/-- The counters of the loop in `_M_update_handles`. -/
structure Cursor where
  i : Nat
  ignored : Nat
deriving DecidableEq, Repr

/-- One iteration of the loop in `_M_update_handles` on the handle `key`.
`none` is a call through the end iterator of `m_work_info_`. After QUIT the
`i--` and the `i++` of the loop cancel, also when `i` is zero. -/
def updateHandle (answer : Answer) (work : Work Object) (cursor : Cursor) (key : PollHandle) :
    Option (Work Object × Cursor) :=
  let socket := key.absSocket
  match work.info socket with
  | none => none
  | some _ =>
      match answer.option with
      | .quit => some
          ({ handles := work.handles.eraseIdx cursor.i
             info := Function.update work.info socket none }, cursor)
      | option =>
          let ignored := if option = .ignore ∧ -socket = 0 then cursor.ignored + 1 else cursor.ignored
          let socket := if option = .ignore then -socket else socket
          some
            ({ work with handles := work.handles.set cursor.i ⟨socket, answer.events, 0⟩ },
              ⟨cursor.i + 1, if socket < 0 then ignored + 1 else ignored⟩)

/-- Where the worker thread is. The counts are `pending_satisfied`. -/
inductive Worker where
  | waiting
  | woken
  | polling (pendingSatisfied : Int)
  | updating (pendingSatisfied : Int) (cursor : Cursor)
  | storing (pendingSatisfied : Int) (hasWork : Bool)
  | finished
  | faulted
deriving DecidableEq, Repr

/-- The members of `async_pipeline`, where its worker is, and how many clients
are between their push and their call of `_M_notify_pending`. -/
structure Pipeline (Object : Type) where
  threadClosing : Bool
  threadHasWork : Bool
  threadPending : Int
  work : Work Object
  workPending : List (Int × Object)
  workRemoved : List Int
  worker : Worker
  notifying : Nat

/-- The state the constructor leaves, with the worker at its first wait. -/
def init : Pipeline Object where
  threadClosing := false
  threadHasWork := false
  threadPending := 0
  work := ⟨[], fun _ => none⟩
  workPending := []
  workRemoved := []
  worker := .waiting
  notifying := 0

/-- The predicate `m_thread_cv_` waits for. -/
def waitPredicate (s : Pipeline Object) : Bool :=
  s.threadClosing || s.threadHasWork || decide (0 < s.threadPending)

inductive Action (Object : Type) where
  | pushAdd (socket : Int) (object : Object)
  | pushRemove (socket : Int)
  | notifyPending
  | notify
  | close
  | wake
  | drain
  | poll (revents : PollHandle → Int)
  | callback (answer : Answer)
  | endUpdate
  | store

/-- The locked half of `add_object`. A negative socket throws before it. -/
def pushAdd (socket : Int) (object : Object) (s : Pipeline Object) : Option (Pipeline Object) :=
  if socket < 0 then none
  else some { s with
    workPending := s.workPending ++ [(socket, object)]
    notifying := s.notifying + 1 }

/-- The locked half of `remove_object`. A negative socket throws before it. -/
def pushRemove (socket : Int) (s : Pipeline Object) : Option (Pipeline Object) :=
  if socket < 0 then none
  else some { s with
    workRemoved := s.workRemoved ++ [socket]
    notifying := s.notifying + 1 }

/-- `_M_notify_pending(1)`, by a client that has pushed its request. -/
def notifyPending (s : Pipeline Object) : Option (Pipeline Object) :=
  if s.notifying = 0 then none
  else some { s with
    threadPending := s.threadPending + 1
    notifying := s.notifying - 1 }

def notify (s : Pipeline Object) : Pipeline Object := { s with threadHasWork := true }

/-- `_M_end`. -/
def close (s : Pipeline Object) : Pipeline Object := { s with threadClosing := true }

/-- The worker leaves its wait and, unless the pipeline closes, starts a pass. -/
def wake (s : Pipeline Object) : Option (Pipeline Object) :=
  if s.worker = .waiting ∧ waitPredicate s then
    some { s with worker := if s.threadClosing then .finished else .woken }
  else none

/-- The worker's locked scope in `_M_dowork`. -/
def drain (s : Pipeline Object) : Option (Pipeline Object) :=
  if s.worker = .woken then
    match removePendingFromQueue s.workRemoved (copyPendingToQueue s.workPending s.work) with
    | none => some { s with worker := .faulted }
    | some work => some { s with
        work := work
        workPending := []
        workRemoved := []
        worker := .polling (s.workPending.length + s.workRemoved.length) }
  else none

/-- `poll(&m_work_handles_, ...)`, which sets the returned events. -/
def poll (revents : PollHandle → Int) (s : Pipeline Object) : Option (Pipeline Object) :=
  match s.worker with
  | .polling satisfied => some { s with
      work := { s.work with
        handles := s.work.handles.map fun handle =>
          { handle with returnEvents := revents handle } }
      worker := .updating satisfied ⟨0, 0⟩ }
  | _ => none

/-- The next callback of `_M_update_handles`. -/
def callback (answer : Answer) (s : Pipeline Object) : Option (Pipeline Object) :=
  match s.worker with
  | .updating satisfied cursor =>
      match s.work.handles[cursor.i]? with
      | none => none
      | some key =>
          match updateHandle answer s.work cursor key with
          | none => some { s with worker := .faulted }
          | some (work, next) => some { s with work := work, worker := .updating satisfied next }
  | _ => none

/-- The end of the loop in `_M_update_handles`, and its result negated. -/
def endUpdate (s : Pipeline Object) : Option (Pipeline Object) :=
  match s.worker with
  | .updating satisfied cursor =>
      if cursor.i < s.work.handles.length then none
      else some { s with worker := .storing satisfied (cursor.ignored ≠ s.work.handles.length) }
  | _ => none

/-- The thread locked scope at the end of `_M_dowork`. -/
def store (s : Pipeline Object) : Option (Pipeline Object) :=
  match s.worker with
  | .storing satisfied hasWork => some { s with
      threadHasWork := hasWork
      threadPending := s.threadPending - satisfied
      worker := .waiting }
  | _ => none

def step (s : Pipeline Object) : Action Object → Option (Pipeline Object)
  | .pushAdd socket object => pushAdd socket object s
  | .pushRemove socket => pushRemove socket s
  | .notifyPending => notifyPending s
  | .notify => some (notify s)
  | .close => some (close s)
  | .wake => wake s
  | .drain => drain s
  | .poll revents => poll revents s
  | .callback answer => callback answer s
  | .endUpdate => endUpdate s
  | .store => store s

end ImpactSockets.AsyncPipeline
