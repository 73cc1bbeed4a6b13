import ImpactSockets.Library.Monitor
import ImpactSockets.Sockets.AsyncPipeline.LockSteps

/-! The locks of the asynchronous pipeline as monitors: `m_thread_mtx_` with the worker
that waits for requests, the same mutex with the worker that waits to be closed, and
`m_work_mtx_`, at which nobody waits. -/
namespace ImpactSockets.AsyncPipeline.Locks

open Transition Monitor

variable {ι Object : Type} [DecidableEq ι] {s t : Threads ι Object} {action : Action ι Object}

/-- What the worker waits for at `m_thread_cv_`. -/
inductive Awaited where
  | request
  | closing

def Awaited.Ready (awaited : Awaited) (s : Threads ι Object) : Prop :=
  match awaited with
  | .request => waitPredicate s = true
  | .closing => s.threadClosing = true

def Worker.place : Worker → Place
  | .testing | .holding | .writing _ _ | .written => .inside
  | .blocking => .resolved
  | .asleep => .asleep
  | _ => .away

/-- A client announces requests, but nothing about the end of the pipeline. -/
def Client.place (awaited : Awaited) : Client Object → Place
  | .counting | .marking => .inside
  | .counted | .marked =>
      match awaited with
      | .request => .changed
      | .closing => .inside
  | .signalling =>
      match awaited with
      | .request => .owing
      | .closing => .away
  | _ => .away

def Ender.place : Ender → Place
  | .locked => .inside
  | .set => .changed
  | .unlocked => .owing
  | _ => .away

def place (awaited : Awaited) (s : Threads ι Object) : Thread ι → Place
  | .worker => s.worker.place
  | .client p => (s.client p).place awaited
  | .ender => s.ender.place

def view (awaited : Awaited) (s : Threads ι Object) : Snapshot (Thread ι) where
  ready := awaited.Ready s
  holder := s.threadMtx
  place := place awaited s

theorem place_client (awaited : Awaited) {p : ι} {client : Client Object} {there : Place}
    (hClient : t.client = Function.update s.client p client) (hWorker : t.worker = s.worker)
    (hEnder : t.ender = s.ender)
    (hThere : client.place awaited = there) : Goes (view awaited s) (view awaited t) (.client p) there := by
  funext thread
  cases thread with
  | worker => simp [view, place, hWorker]
  | ender => simp [view, place, hEnder]
  | client q =>
      rcases eq_or_ne q p with rfl | hNe
      · simp [view, place, hClient, hThere]
      · simp [view, place, hClient, hNe]

theorem place_worker (awaited : Awaited) {there : Place} (hClient : t.client = s.client) (hEnder : t.ender = s.ender)
    (hThere : t.worker.place = there) : Goes (view awaited s) (view awaited t) .worker there := by
  funext thread
  cases thread <;> simp [view, place, hClient, hEnder, hThere]

theorem place_ender (awaited : Awaited) {there : Place} (hClient : t.client = s.client) (hWorker : t.worker = s.worker)
    (hThere : t.ender.place = there) : Goes (view awaited s) (view awaited t) .ender there := by
  funext thread
  cases thread <;> simp [view, place, hClient, hWorker, hThere]

/-- A client moves on and stays where the monitor sees it. -/
theorem stay_client (awaited : Awaited) {p : ι} {client : Client Object}
    (hClient : t.client = Function.update s.client p client) (hWorker : t.worker = s.worker)
    (hEnder : t.ender = s.ender)
    (hThere : (s.client p).place awaited = client.place awaited) : (view awaited t).place = (view awaited s).place :=
  (place_client awaited hClient hWorker hEnder hThere.symm).trans (Function.update_eq_self ..)

theorem stay_worker (awaited : Awaited) (hClient : t.client = s.client) (hEnder : t.ender = s.ender)
    (hThere : s.worker.place = t.worker.place) : (view awaited t).place = (view awaited s).place :=
  (place_worker awaited hClient hEnder hThere.symm).trans (Function.update_eq_self ..)

/-- The signal finds the worker asleep or not. -/
theorem moves_notifyCv (awaited : Awaited) (s : Threads ι Object) :
    Relation.ReflTransGen (Moves .worker) (view awaited s) (view awaited (notifyCv s)) := by
  unfold notifyCv
  split_ifs with hAsleep
  · refine .single (.wake ?_ (place_worker awaited rfl rfl rfl) rfl rfl)
    simp [view, place, hAsleep, Worker.place]
  · exact .refl

/-- A client changes what the worker waits for. -/
theorem moves_changed (awaited : Awaited) {p : ι} {changed : Client Object}
    (hInside : (s.client p).place awaited = .inside) (hChanged : changed = .counted ∨ changed = .marked)
    (hClient : t.client = Function.update s.client p changed) (hWorker : t.worker = s.worker)
    (hEnder : t.ender = s.ender)
    (hHolder : t.threadMtx = s.threadMtx) (hClosing : t.threadClosing = s.threadClosing) :
    Moves .worker (view awaited s) (view awaited t) := by
  cases awaited with
  | request =>
      have hThere : changed.place .request = .changed := by rcases hChanged with rfl | rfl <;> rfl
      exact .change (.client p) nofun hInside (place_client .request hClient hWorker hEnder hThere) hHolder
  | closing =>
      have hThere : changed.place .closing = .inside := by rcases hChanged with rfl | rfl <;> rfl
      exact .stay (stay_client .closing hClient hWorker hEnder (hInside.trans hThere.symm)) hHolder
        (congrArg (· = true) hClosing)

/-- A client releases the mutex. -/
theorem moves_leave (awaited : Awaited) {p : ι} (hClient : s.client p = .counted ∨ s.client p = .marked) :
    Moves .worker (view awaited s) (view awaited { s.move p .signalling with threadMtx := none }) := by
  cases awaited with
  | request =>
      have hChanged : (view .request s).place (.client p) = .changed := by
        rcases hClient with h | h <;> simp [view, place, h, Client.place]
      exact .leaveOwing (.client p) hChanged (place_client .request rfl rfl rfl rfl) rfl rfl
  | closing =>
      have hInside : (view .closing s).place (.client p) = .inside := by
        rcases hClient with h | h <;> simp [view, place, h, Client.place]
      exact .leave (.client p) hInside (place_client .closing rfl rfl rfl rfl) rfl rfl

omit [DecidableEq ι] in
theorem notifyCv_worker (awaited : Awaited) (s : Threads ι Object) :
    (view awaited (notifyCv s)).place .worker ≠ .asleep := by
  unfold notifyCv
  split_ifs with hAsleep
  · simp [view, place, Worker.place]
  · cases hWorker : s.worker <;> simp_all [view, place, Worker.place]

/-- A client that has released the mutex wakes the worker. -/
theorem moves_signal (awaited : Awaited) {p : ι} (hClient : s.client p = .signalling) :
    Relation.ReflTransGen (Moves .worker) (view awaited s) (view awaited (notifyCv (s.move p .outside))) := by
  have hMove : notifyCv (s.move p .outside) = (notifyCv s).move p .outside := by
    unfold notifyCv Threads.move
    split_ifs <;> rfl
  have hSame : (notifyCv s).client = s.client := by
    unfold notifyCv
    split_ifs <;> rfl
  rw [hMove]
  refine (moves_notifyCv awaited s).tail ?_
  cases awaited with
  | request =>
      have hOwing : (view .request (notifyCv s)).place (.client p) = .owing := by
        simp [view, place, hSame, hClient, Client.place]
      exact .signal (.client p) hOwing (notifyCv_worker .request s) (place_client .request rfl rfl rfl rfl) rfl rfl
  | closing =>
      exact .stay (stay_client .closing rfl rfl rfl (by simp [hSame, hClient, Client.place])) rfl rfl

/-- The destructor wakes the worker. -/
theorem moves_endNotify (awaited : Awaited) (hEnder : s.ender = .unlocked) :
    Relation.ReflTransGen (Moves .worker) (view awaited s) (view awaited (notifyCv { s with ender := .joining })) := by
  have hMove : notifyCv { s with ender := .joining } = { notifyCv s with ender := .joining } := by
    unfold notifyCv
    split_ifs <;> rfl
  have hOwing : (view awaited (notifyCv s)).place .ender = .owing := by
    unfold notifyCv
    split_ifs <;> simp [view, place, hEnder, Ender.place]
  rw [hMove]
  exact (moves_notifyCv awaited s).tail
    (.signal .ender hOwing (notifyCv_worker awaited s) (place_ender awaited rfl rfl rfl) rfl rfl)

/-- What a step of the client, the worker or the destructor is, if it takes no signal. -/
def Action.Signals : Action ι Object → Prop
  | .signal _ | .endNotify => True
  | _ => False

theorem moves_of_steps (awaited : Awaited) (h : Steps s action t) (hSignals : ¬action.Signals) :
    Moves .worker (view awaited s) (view awaited t) := by
  cases h with
  | request p request hClient =>
      exact .stay (stay_client awaited rfl rfl rfl (by simp [hClient, Client.place])) rfl rfl
  | push p request hClient =>
      have hAway : (s.client p).place awaited = (Client.requested : Client Object).place awaited := by
        simp [hClient, Client.place]
      cases request <;> exact .stay (stay_client awaited rfl rfl rfl hAway) rfl rfl
  | release p hClient =>
      exact .stay (stay_client awaited rfl rfl rfl (by simp [hClient, Client.place])) rfl rfl
  | enterCount p hClient hFree =>
      exact .enter (.client p) hFree (by simp [view, place, hClient, Client.place])
        (place_client awaited rfl rfl rfl rfl) rfl rfl
  | enterMark p hClient hFree =>
      exact .enter (.client p) hFree (by simp [view, place, hClient, Client.place])
        (place_client awaited rfl rfl rfl rfl) rfl rfl
  | count p hClient => exact moves_changed awaited (by simp [hClient, Client.place]) (.inl rfl) rfl rfl rfl rfl rfl
  | mark p hClient => exact moves_changed awaited (by simp [hClient, Client.place]) (.inr rfl) rfl rfl rfl rfl rfl
  | leave p hClient => exact moves_leave awaited hClient
  | signal p hClient => exact absurd trivial hSignals
  | enter hWorker hFree =>
      have hAway : (view awaited s).place .worker = .away := by
        rcases hWorker with h | h <;> simp [view, place, h, Worker.place]
      exact .enter .worker hFree hAway (place_worker awaited rfl rfl rfl) rfl rfl
  | testTrue hWorker | enterDrain hWorker | drain work hWorker | drainFault hWorker | leaveDrain satisfied hWorker
  | poll revents satisfied hWorker | callback answer satisfied cursor next key work hWorker
  | callbackFault answer satisfied cursor key hWorker | endUpdate satisfied cursor hWorker =>
      exact .stay (stay_worker awaited rfl rfl (by simp [hWorker, Worker.place])) rfl rfl
  | testFalse hWorker hReady =>
      have hUnready : ¬awaited.Ready s := by cases awaited <;> simp_all [Awaited.Ready, waitPredicate]
      exact .resolve (by simp [view, place, hWorker, Worker.place]) hUnready (place_worker awaited rfl rfl rfl) rfl rfl
  | sleep hWorker =>
      exact .sleep (by simp [view, place, hWorker, Worker.place]) (place_worker awaited rfl rfl rfl) rfl rfl
  | spurious hWorker =>
      exact .wake (by simp [view, place, hWorker, Worker.place]) (place_worker awaited rfl rfl rfl) rfl rfl
  | finish hWorker | proceed hWorker | leaveStore hWorker =>
      exact .leave .worker (by simp [view, place, hWorker, Worker.place]) (place_worker awaited rfl rfl rfl) rfl rfl
  | enterStore satisfied hasWork hWorker hFree =>
      exact .enter .worker hFree (by simp [view, place, hWorker, Worker.place])
        (place_worker awaited rfl rfl rfl) rfl rfl
  | store satisfied hasWork hWorker =>
      have hInside : s.worker.place = .inside := by simp [hWorker, Worker.place]
      exact .own hInside (stay_worker awaited rfl rfl hInside) rfl
  | endLock hEnder hFree =>
      exact .enter .ender hFree (by simp [view, place, hEnder, Ender.place]) (place_ender awaited rfl rfl rfl) rfl rfl
  | endSet hEnder =>
      exact .change .ender nofun (by simp [view, place, hEnder, Ender.place]) (place_ender awaited rfl rfl rfl) rfl
  | endUnlock hEnder =>
      exact .leaveOwing .ender (by simp [view, place, hEnder, Ender.place]) (place_ender awaited rfl rfl rfl) rfl rfl
  | endNotify hEnder => exact absurd trivial hSignals
  | endJoin hEnder hWorker =>
      have hAway : (view awaited s).place .ender = .away := by simp [view, place, hEnder, Ender.place]
      have hPlace := (place_ender (t := { s with ender := .joined }) (s := s) awaited rfl rfl rfl).trans
        (Function.update_eq_self_iff.mpr hAway.symm)
      exact .stay hPlace rfl rfl

/-- Every step of the program moves it as a monitor over `m_thread_mtx_`. -/
theorem view_moves (awaited : Awaited) (h : step s action = some t) :
    Relation.ReflTransGen (Moves .worker) (view awaited s) (view awaited t) := by
  have hSteps := steps_of_step h
  by_cases hSignals : action.Signals
  · cases hSteps with
    | signal p hClient => exact moves_signal awaited hClient
    | endNotify hEnder => exact moves_endNotify awaited hEnder
    | _ => cases hSignals
  · exact .single (moves_of_steps awaited hSteps hSignals)

/-- After every run the threads exclude one another at `m_thread_mtx_` and no wake-up of
the worker has been lost. -/
theorem view_sound (awaited : Awaited) {actions : List (Action ι Object)} (run : Runs step init actions s) :
    Monitor.Sound .worker (view awaited s) := by
  refine Monitor.sound_of_runs run ?_ rfl fun _ _ _ _ _ => view_moves awaited
  intro thread
  cases thread <;> rfl

end ImpactSockets.AsyncPipeline.Locks
