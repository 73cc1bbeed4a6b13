import ImpactSockets.Sockets.AsyncPipeline.LockWakeups

/-! No state of the pipeline with its locks is a deadlock: from wherever the threads are,
those that are in the middle of something can bring it to its end. -/
namespace ImpactSockets.AsyncPipeline.Locks

open Transition Monitor

variable {ι Object : Type} [DecidableEq ι] {s t : Threads ι Object} {action : Action ι Object}

/-! ### Steps that begin nothing -/

/-- The action goes on with what a client or the worker has begun. -/
def Action.Quiet : Action ι Object → Prop
  | .request _ _ | .enterMark _ | .spurious | .endLock | .endSet | .endUnlock | .endNotify | .endJoin => False
  | _ => True

def QuietStep (s t : Threads ι Object) : Prop := ∃ action, action.Quiet ∧ Steps s action t

/-- Going on leads from one state to another. -/
def Reaches : Threads ι Object → Threads ι Object → Prop := Relation.ReflTransGen QuietStep

/-- One step without a new call is a way on. -/
theorem Steps.reaches (h : Steps s action t) (hQuiet : action.Quiet) : Reaches s t := .single ⟨action, hQuiet, h⟩

/-- No step of the worker or of a client in its call touches the destructor. -/
theorem QuietStep.frame (h : QuietStep s t) : t.ender = s.ender ∧ t.threadClosing = s.threadClosing := by
  obtain ⟨action, hQuiet, hSteps⟩ := h
  cases hSteps with
  | push p request => cases request <;> exact ⟨rfl, rfl⟩
  | signal p =>
      unfold notifyCv
      split_ifs <;> exact ⟨rfl, rfl⟩
  | endSet | endNotify | endLock | endUnlock | endJoin => cases hQuiet
  | _ => exact ⟨rfl, rfl⟩

/-- Going on does not touch the destructor. -/
theorem Reaches.frame (h : Reaches s t) : t.ender = s.ender ∧ t.threadClosing = s.threadClosing := by
  induction h with
  | refl => exact ⟨rfl, rfl⟩
  | tail _ last ih => exact ⟨last.frame.1.trans ih.1, last.frame.2.trans ih.2⟩

/-- A way on is a run whose actions are all quiet. -/
theorem Reaches.runs (h : Reaches s t) : ∃ later, Runs step s later t ∧ ∀ action ∈ later, action.Quiet := by
  induction h with
  | refl => exact ⟨[], Runs.nil, by simp⟩
  | tail _ last ih =>
      obtain ⟨later, run, hQuiet⟩ := ih
      obtain ⟨action, hAction, hSteps⟩ := last
      refine ⟨later ++ [action], run.snoc hSteps.step, fun a ha => ?_⟩
      rcases List.mem_append.mp ha with h | h
      · exact hQuiet a h
      · rwa [List.mem_singleton.mp h]

/-- A state of a run in which the destructor has not got the mutex. -/
structure Live (s : Threads ι Object) : Prop where
  reachable : ∃ actions, Runs step init actions s
  ender : ¬s.ender.place.Holds

/-- The states on the way are reachable ones, so their invariants hold. -/
theorem Live.reaches (live : Live s) (h : Reaches s t) : Live t := by
  obtain ⟨actions, run⟩ := live.reachable
  obtain ⟨later, runLater, -⟩ := h.runs
  exact ⟨⟨_, run.append runLater⟩, h.frame.1 ▸ live.ender⟩

/-- In a reachable state the monitor of the thread mutex is sound, for work and for the end. -/
theorem Live.sound (live : Live s) (awaited : Awaited) : Monitor.Sound .worker (view awaited s) := by
  obtain ⟨actions, run⟩ := live.reachable
  exact view_sound awaited run

/-- No reachable worker has run into a fault. -/
theorem Live.running (live : Live s) : s.worker ≠ .faulted := by
  obtain ⟨actions, run⟩ := live.reachable
  exact not_faulted_of_runs run

/-! ### The mutexes are released -/

/-- Clients go on, the worker does not, and no request becomes one in flight. -/
structure Calms (s t : Threads ι Object) : Prop where
  reaches : Reaches s t
  worker : t.worker = s.worker
  inFlight : ∀ p, (t.client p).InFlight → (s.client p).InFlight

/-- Moreover the clients that wait for `m_thread_mtx_` go on waiting. -/
structure Spares (s t : Threads ι Object) : Prop extends Calms s t where
  pushed : ∀ p, s.client p = .pushed → t.client p = .pushed

theorem Calms.refl : Calms s s := ⟨.refl, rfl, fun _ => id⟩

/-- Two ways that leave the worker and start no call compose. -/
theorem Calms.trans {u : Threads ι Object} (h : Calms s t) (h' : Calms t u) : Calms s u :=
  ⟨h.reaches.trans h'.reaches, h'.worker.trans h.worker, fun p hp => h.inFlight p (h'.inFlight p hp)⟩

/-- Two ways that leave the worker and the waiting clients compose. -/
theorem Spares.trans {u : Threads ι Object} (h : Spares s t) (h' : Spares t u) : Spares s u :=
  ⟨h.toCalms.trans h'.toCalms, fun p hp => h'.pushed p (h.pushed p hp)⟩

/-- One step of a client that leaves the worker and puts no request in flight. -/
theorem calms_step {p : ι} {client : Client Object} (h : Steps s action t) (hQuiet : action.Quiet)
    (hWorker : t.worker = s.worker) (hClient : t.client = Function.update s.client p client)
    (hInFlight : client.InFlight → (s.client p).InFlight) : Calms s t := by
  refine ⟨h.reaches hQuiet, hWorker, fun q hq => ?_⟩
  rcases eq_or_ne q p with rfl | hNe
  · exact hInFlight (by simpa [hClient] using hq)
  · simpa [hClient, hNe] using hq

/-- One client goes on that does not wait for a mutex. -/
theorem spares_step {p : ι} {client : Client Object} (h : Steps s action t) (hQuiet : action.Quiet)
    (hWorker : t.worker = s.worker) (hClient : t.client = Function.update s.client p client)
    (hInFlight : client.InFlight → (s.client p).InFlight) (hPushed : s.client p ≠ .pushed) : Spares s t := by
  refine ⟨calms_step h hQuiet hWorker hClient hInFlight, fun q hq => ?_⟩
  have hNe : q ≠ p := fun hEq => hPushed (hEq ▸ hq)
  simpa [hClient, hNe] using hq

/-- A client leaves its scope of `m_thread_mtx_`. -/
theorem spares_leave {p : ι} (hClient : s.client p = .counted ∨ s.client p = .marked) :
    ∃ t, Spares s t ∧ t.threadMtx = none := by
  refine ⟨_, spares_step (.leave p hClient) trivial rfl rfl nofun ?_, rfl⟩
  rcases hClient with h | h <;> simp [h]

/-- A client that holds the thread mutex can release it while the others wait. -/
theorem spares_of_inside {p : ι} (hInside : (place .request s (.client p)).Holds) :
    ∃ t, Spares s t ∧ t.threadMtx = none := by
  cases hClient : s.client p with
  | counting =>
      have hCount := spares_step (.count p hClient) trivial rfl rfl nofun (by simp [hClient])
      have hCounted : ({ s.move p .counted with threadPending := s.threadPending + 1 } :
        Threads ι Object).client p = .counted :=
        Function.update_self ..
      obtain ⟨t, hSpares, hFree⟩ := spares_leave (.inl hCounted)
      exact ⟨t, hCount.trans hSpares, hFree⟩
  | marking =>
      have hMark := spares_step (.mark p hClient) trivial rfl rfl nofun (by simp [hClient])
      have hMarked : ({ s.move p .marked with threadHasWork := true } : Threads ι Object).client p = .marked :=
        Function.update_self ..
      obtain ⟨t, hSpares, hFree⟩ := spares_leave (.inr hMarked)
      exact ⟨t, hMark.trans hSpares, hFree⟩
  | counted => exact spares_leave (.inl hClient)
  | marked => exact spares_leave (.inr hClient)
  | _ => simp [place, hClient, Client.place, Place.Holds] at hInside

/-- `m_thread_mtx_` becomes free for a worker that has not got it. -/
theorem Live.free_threadMtx (live : Live s) (hWorker : ¬s.worker.place.Holds) :
    ∃ t, Spares s t ∧ t.threadMtx = none := by
  cases hHolder : s.threadMtx with
  | none => exact ⟨s, ⟨.refl, fun _ => id⟩, hHolder⟩
  | some thread =>
      have hHolds := ((live.sound .request).holds thread).mpr hHolder
      cases thread with
      | worker => exact absurd hHolds hWorker
      | client p => exact spares_of_inside hHolds
      | ender => exact absurd hHolds live.ender

/-- `m_work_mtx_` becomes free for a worker that has not got it. -/
theorem Live.free_workMtx (live : Live s) (hWorker : ¬s.worker.workPlace.Holds) :
    ∃ t, Reaches s t ∧ t.worker = s.worker ∧ t.workMtx = none := by
  obtain ⟨actions, run⟩ := live.reachable
  cases hHolder : s.workMtx with
  | none => exact ⟨s, .refl, rfl, hHolder⟩
  | some thread =>
      have hHolds := ((workView_sound run).holds thread).mpr hHolder
      cases thread with
      | worker => exact absurd hHolds hWorker
      | ender => simp [workView, workPlace, Place.Holds] at hHolds
      | client p =>
          cases hClient : s.client p with
          | requesting request =>
              have hPush := (Steps.push p request hClient).reaches trivial
              have hRequested : (push request (s.move p .requested)).client p = .requested := by
                cases request <;> simp [push, Threads.move]
              refine ⟨_, hPush.trans ((Steps.release p hRequested).reaches trivial), ?_, rfl⟩
              cases request <;> rfl
          | requested => exact ⟨_, (Steps.release p hClient).reaches trivial, rfl, rfl⟩
          | _ => simp [workView, workPlace, hClient, Client.workPlace, Place.Holds] at hHolds

/-! ### The worker ends its pass -/

/-- The worker is behind the scope in which it has emptied the queues. -/
def Worker.Passing : Worker → Prop
  | .drained _ | .polling _ | .updating _ _ | .storing _ _ | .writing _ _ | .written => True
  | _ => False

/-- The worker comes back to the head of its loop. -/
def Returns (s : Threads ι Object) : Prop := ∃ t, Reaches s t ∧ t.worker = .entering

theorem Returns.of_reaches (h : Reaches s t) (hReturns : Returns t) : Returns s := by
  obtain ⟨u, hReaches, hEntering⟩ := hReturns
  exact ⟨u, h.trans hReaches, hEntering⟩

/-- From the last write of a pass the worker gets back to its loop. -/
theorem returns_of_writing {satisfied : Int} {hasWork : Bool} (hWorker : s.worker = .writing satisfied hasWork) :
    Returns s :=
  ⟨_, ((Steps.store satisfied hasWork hWorker).reaches trivial).trans ((Steps.leaveStore rfl).reaches trivial), rfl⟩

/-- From the store of the count the worker gets back to its loop. -/
theorem Live.returns_of_storing (live : Live s) {satisfied : Int} {hasWork : Bool}
    (hWorker : s.worker = .storing satisfied hasWork) : Returns s := by
  obtain ⟨t, hSpares, hFree⟩ := live.free_threadMtx (by simp [hWorker, Worker.place, Place.Holds])
  have hStoring := hSpares.worker.trans hWorker
  exact (returns_of_writing rfl).of_reaches
    (hSpares.reaches.trans ((Steps.enterStore satisfied hasWork hStoring hFree).reaches trivial))

/-- A callback that continues goes on to the next handle. -/
theorem updateHandle_continue {work next : Work Object} {cursor cursor' : Cursor} {key : PollHandle} {events : Int}
    (h : updateHandle ⟨.continue_, events⟩ work cursor key = some (next, cursor')) :
    next.handles.length = work.handles.length ∧ cursor'.i = cursor.i + 1 := by
  unfold updateHandle at h
  cases hInfo : work.info key.absSocket with
  | none => simp [hInfo] at h
  | some object =>
      simp only [hInfo, Option.some.injEq, Prod.mk.injEq] at h
      obtain ⟨rfl, rfl⟩ := h
      simp

/-- The callbacks that are left are as many as the handles behind the cursor. -/
theorem Live.returns_of_updating (live : Live s) {satisfied : Int} {cursor : Cursor}
    (hWorker : s.worker = .updating satisfied cursor) : Returns s := by
  induction hLeft : s.work.handles.length - cursor.i generalizing s cursor with
  | zero =>
      have hReaches := (Steps.endUpdate satisfied cursor hWorker (by omega)).reaches trivial
      exact ((live.reaches hReaches).returns_of_storing rfl).of_reaches hReaches
  | succ left ih =>
      have hBounds : cursor.i < s.work.handles.length := by omega
      have hKey := List.getElem?_eq_getElem hBounds
      cases hWork : updateHandle ⟨.continue_, pollIn⟩ s.work cursor s.work.handles[cursor.i] with
      | none =>
          have hReaches := (Steps.callbackFault _ satisfied cursor _ hWorker hKey hWork).reaches trivial
          exact absurd rfl (live.reaches hReaches).running
      | some result =>
          obtain ⟨work, next⟩ := result
          obtain ⟨hLength, hNext⟩ := updateHandle_continue hWork
          have hReaches := (Steps.callback _ satisfied cursor next _ work hWorker hKey hWork).reaches trivial
          exact (ih (live.reaches hReaches) rfl (by simp only [hLength, hNext]; omega)).of_reaches hReaches

/-- From `poll` the worker gets back to its loop: the callbacks that follow are finitely many. -/
theorem Live.returns_of_polling (live : Live s) {satisfied : Int} (hWorker : s.worker = .polling satisfied) :
    Returns s := by
  have hReaches := (Steps.poll (fun _ => 0) satisfied hWorker).reaches trivial
  exact ((live.reaches hReaches).returns_of_updating rfl).of_reaches hReaches

/-- A worker behind its first scope comes back to the head of its loop. -/
theorem Live.returns (live : Live s) (hPassing : s.worker.Passing) : Returns s := by
  cases hWorker : s.worker with
  | drained satisfied =>
      have hReaches := (Steps.leaveDrain satisfied hWorker).reaches trivial
      exact ((live.reaches hReaches).returns_of_polling rfl).of_reaches hReaches
  | polling satisfied => exact live.returns_of_polling hWorker
  | updating satisfied cursor => exact live.returns_of_updating hWorker
  | storing satisfied hasWork => exact live.returns_of_storing hWorker
  | writing satisfied hasWork => exact returns_of_writing hWorker
  | written => exact ⟨_, (Steps.leaveStore hWorker).reaches trivial, rfl⟩
  | _ => simp [hWorker, Worker.Passing] at hPassing

/-- A worker that is awake comes to its test. -/
theorem Live.enters (live : Live s) (hWorker : s.worker = .entering ∨ s.worker = .woken) :
    ∃ t, Reaches s t ∧ t.worker = .testing ∧ ∀ p, (t.client p).InFlight → (s.client p).InFlight := by
  have hOut : ¬s.worker.place.Holds := by rcases hWorker with h | h <;> simp [h, Worker.place, Place.Holds]
  obtain ⟨t, hSpares, hFree⟩ := live.free_threadMtx hOut
  have hEnter := (Steps.enter (hSpares.worker ▸ hWorker) hFree).reaches trivial
  exact ⟨_, hSpares.reaches.trans hEnter, rfl, hSpares.inFlight⟩

/-- A worker that has begun a pass empties the queues. -/
theorem Live.drains (live : Live s) (hWorker : s.worker = .starting ∨ s.worker = .draining) :
    ∃ t, Reaches s t ∧ t.workPending = [] ∧ t.workRemoved = [] ∧ t.worker.Passing := by
  obtain ⟨t, hReaches, hDraining⟩ : ∃ t, Reaches s t ∧ t.worker = .draining := by
    rcases hWorker with hStarting | hDraining
    · obtain ⟨t, hReaches, hSame, hFree⟩ := live.free_workMtx (by simp [hStarting, Worker.workPlace, Place.Holds])
      exact ⟨_, hReaches.trans ((Steps.enterDrain (hSame.trans hStarting) hFree).reaches trivial), rfl⟩
    · exact ⟨s, .refl, hDraining⟩
  cases hWork : removePendingFromQueue t.workRemoved (copyPendingToQueue t.workPending t.work) with
  | none =>
      have hFault := (Steps.drainFault hDraining hWork).reaches trivial
      exact absurd rfl (live.reaches (hReaches.trans hFault)).running
  | some work => exact ⟨_, hReaches.trans ((Steps.drain work hDraining hWork).reaches trivial), rfl, rfl, trivial⟩

/-! ### The destructor -/

/-- The thread of the pipeline ends. -/
def Ends (s : Threads ι Object) : Prop := ∃ t, Reaches s t ∧ t.worker = .finished

theorem Ends.of_reaches (h : Reaches s t) (hEnds : Ends t) : Ends s := by
  obtain ⟨u, hReaches, hFinished⟩ := hEnds
  exact ⟨u, h.trans hReaches, hFinished⟩

/-- With the flag set, the worker that holds the mutex leaves its loop. -/
theorem ends_of_holding (hClosing : s.threadClosing = true) (hWorker : s.worker = .holding) : Ends s :=
  ⟨_, (Steps.finish hWorker hClosing).reaches trivial, rfl⟩

/-- With the flag set, the worker that tests the predicate does not sleep and leaves its loop. -/
theorem ends_of_testing (hClosing : s.threadClosing = true) (hWorker : s.worker = .testing) : Ends s := by
  have hReaches := (Steps.testTrue hWorker (by simp [waitPredicate, hClosing])).reaches trivial
  have hEnds : Ends { s with worker := .holding } := ends_of_holding hClosing rfl
  exact hEnds.of_reaches hReaches

/-- The worker in front of the mutex gets it once the clients let go of it, and then leaves. -/
theorem Live.ends_of_entering (live : Live s) (hClosing : s.threadClosing = true)
    (hWorker : s.worker = .entering ∨ s.worker = .woken) : Ends s := by
  obtain ⟨t, hReaches, hTesting, -⟩ := live.enters hWorker
  exact (ends_of_testing (hReaches.frame.2.trans hClosing) hTesting).of_reaches hReaches

/-- The worker in the middle of a pass finishes it and then leaves. -/
theorem Live.ends_of_passing (live : Live s) (hClosing : s.threadClosing = true) (hPassing : s.worker.Passing) :
    Ends s := by
  obtain ⟨t, hReaches, hEntering⟩ := live.returns hPassing
  have hLater := hReaches.frame.2.trans hClosing
  exact ((live.reaches hReaches).ends_of_entering hLater (.inl hEntering)).of_reaches hReaches

/-- The worker at the beginning of a pass empties the queues, polls and then leaves. -/
theorem Live.ends_of_starting (live : Live s) (hClosing : s.threadClosing = true)
    (hWorker : s.worker = .starting ∨ s.worker = .draining) : Ends s := by
  obtain ⟨t, hReaches, -, -, hPassing⟩ := live.drains hWorker
  exact ((live.reaches hReaches).ends_of_passing (hReaches.frame.2.trans hClosing) hPassing).of_reaches hReaches

/-- Whenever the destructor waits for its thread, the worker is awake, and it ends when it
and the clients that have a mutex go on. No further call of a client is needed. -/
theorem join_completes (actions : List (Action ι Object)) (s : Threads ι Object) (run : Runs step init actions s)
    (hEnder : s.ender = .joining) :
    s.worker ≠ .asleep ∧ ∃ later t u, Runs step s later t ∧ (∀ action ∈ later, action.Quiet) ∧
      step t .endJoin = some u := by
  obtain ⟨hAwake, hNotBlocking⟩ := awake_of_joining run (.inl hEnder)
  have hClosing : s.threadClosing = true := (closing_of_runs run).1.mpr (by simp [hEnder])
  have live : Live s := ⟨⟨actions, run⟩, by simp [hEnder, Ender.place, Place.Holds]⟩
  have hEnds : Ends s := by
    cases hWorker : s.worker with
    | entering => exact live.ends_of_entering hClosing (.inl hWorker)
    | woken => exact live.ends_of_entering hClosing (.inr hWorker)
    | testing => exact ends_of_testing hClosing hWorker
    | blocking => exact absurd hWorker hNotBlocking
    | asleep => exact absurd hWorker hAwake
    | holding => exact ends_of_holding hClosing hWorker
    | starting => exact live.ends_of_starting hClosing (.inl hWorker)
    | draining => exact live.ends_of_starting hClosing (.inr hWorker)
    | finished => exact ⟨s, .refl, hWorker⟩
    | faulted => exact absurd hWorker live.running
    | _ => exact live.ends_of_passing hClosing (hWorker ▸ trivial)
  obtain ⟨t, hReaches, hFinished⟩ := hEnds
  obtain ⟨later, runLater, hQuiet⟩ := hReaches.runs
  exact ⟨hAwake, later, t, _, runLater, hQuiet, (Steps.endJoin (hReaches.frame.1.trans hEnder) hFinished).step⟩

/-- The destructor closes while the worker is in a pass and a client in its call. -/
def closedRun : List (Action Unit Unit) :=
  [.request () (.add 5 ()), .push (), .release (), .enterCount (), .count (), .leave (), .signal (), .enter, .test,
    .proceed, .enterDrain, .drain, .leaveDrain, .endLock, .endSet, .endUnlock, .endNotify, .enterMark ()]

/-- The destructor's join while the worker is in `poll` and a client is in its call. -/
theorem join_completes_closedRun :
    ∃ s : Threads Unit Unit, Runs step init closedRun s ∧ s.worker = .polling 1 ∧ s.client () = .marking ∧
      ∃ later t u, Runs step s later t ∧ (∀ action ∈ later, action.Quiet) ∧ step t .endJoin = some u :=
  ⟨_, runs_iff_foldlM.mpr rfl, rfl, rfl, (join_completes closedRun _ (runs_iff_foldlM.mpr rfl) rfl).2⟩

/-! ### Requests -/

/-- The worker takes the requests that are queued, and perhaps more. -/
def Serves (s : Threads ι Object) : Prop := ∃ t, Reaches s t ∧ t.workPending = [] ∧ t.workRemoved = []

theorem Serves.of_reaches (h : Reaches s t) (hServes : Serves t) : Serves s := by
  obtain ⟨u, hReaches, hEmpty⟩ := hServes
  exact ⟨u, h.trans hReaches, hEmpty⟩

/-- At the beginning of a pass the worker is about to empty both queues. -/
theorem Live.serves_of_starting (live : Live s) (hWorker : s.worker = .starting ∨ s.worker = .draining) : Serves s := by
  obtain ⟨t, hReaches, hPending, hRemoved, -⟩ := live.drains hWorker
  exact ⟨t, hReaches, hPending, hRemoved⟩

/-- With the predicate true the worker goes from the mutex to its pass. -/
theorem Live.serves_of_holding (live : Live s) (hClosing : s.threadClosing = false) (hWorker : s.worker = .holding) :
    Serves s := by
  have hReaches := (Steps.proceed hWorker hClosing).reaches trivial
  exact ((live.reaches hReaches).serves_of_starting (.inl rfl)).of_reaches hReaches

/-- A worker whose predicate is true does not sleep but begins a pass. -/
theorem Live.serves_of_ready (live : Live s) (hClosing : s.threadClosing = false) (hWorker : s.worker = .testing)
    (hReady : waitPredicate s = true) : Serves s := by
  have hReaches := (Steps.testTrue hWorker hReady).reaches trivial
  exact ((live.reaches hReaches).serves_of_holding hClosing rfl).of_reaches hReaches

/-- With nobody in flight the counter tells what is queued. -/
theorem Live.ready_or_empty (live : Live s) (hNobody : ∀ p, ¬(s.client p).InFlight)
    (hWaiting : s.worker.atomic s.threadClosing = .waiting) :
    waitPredicate s = true ∨ s.workPending = [] ∧ s.workRemoved = [] := by
  obtain ⟨actions, run⟩ := live.reachable
  obtain ⟨inFlight, hMem, hBalanced⟩ := balanced_of_runs run
  have hNone : inFlight = ∅ := by
    ext p
    simp only [hMem, Finset.notMem_empty, iff_false]
    exact hNobody p
  simp only [hNone, hWaiting, AsyncPipeline.Worker.unsubtracted, Finset.card_empty] at hBalanced
  by_cases hPending : 0 < s.threadPending
  · exact .inl (by simp [waitPredicate, hPending])
  · refine .inr ⟨List.eq_nil_of_length_eq_zero ?_, List.eq_nil_of_length_eq_zero ?_⟩ <;> omega

/-- With no client in its call, a worker that finds nothing to do has empty queues already. -/
theorem Live.serves_of_testing (live : Live s) (hClosing : s.threadClosing = false) (hWorker : s.worker = .testing)
    (hNobody : ∀ p, ¬(s.client p).InFlight) : Serves s := by
  rcases live.ready_or_empty hNobody (by simp [hWorker, Worker.atomic]) with hReady | hEmpty
  · exact live.serves_of_ready hClosing hWorker hReady
  · exact ⟨s, .refl, hEmpty⟩

/-- The worker in front of the mutex gets on to its test once no client is in its call. -/
theorem Live.serves_of_entering (live : Live s) (hClosing : s.threadClosing = false)
    (hWorker : s.worker = .entering ∨ s.worker = .woken) (hNobody : ∀ p, ¬(s.client p).InFlight) : Serves s := by
  obtain ⟨t, hReaches, hTesting, hInFlight⟩ := live.enters hWorker
  have hLater := hReaches.frame.2.trans hClosing
  exact ((live.reaches hReaches).serves_of_testing hLater hTesting
    fun p h => hNobody p (hInFlight p h)).of_reaches hReaches

/-- A client on the way to `notify_one` wakes the sleeping worker, which then serves. -/
theorem Live.serves_of_signalling (live : Live s) (hClosing : s.threadClosing = false) (hAsleep : s.worker = .asleep)
    (hNobody : ∀ p, ¬(s.client p).InFlight) {p : ι} (hClient : s.client p = .signalling) : Serves s := by
  have hReaches := (Steps.signal p hClient).reaches trivial
  have hLater := hReaches.frame.2.trans hClosing
  have hWoken : (notifyCv (s.move p .outside)).worker = .woken := by simp [notifyCv, Threads.move, hAsleep]
  refine ((live.reaches hReaches).serves_of_entering hLater (.inr hWoken) fun q hq => ?_).of_reaches hReaches
  rw [client_notifyCv] at hq
  rcases eq_or_ne q p with rfl | hNe
  · simp [Threads.move, Client.InFlight] at hq
  · exact hNobody q (by simpa [Threads.move, hNe] using hq)

/-- A client that owes a signal wakes the worker. -/
theorem Live.serves_of_owes (live : Live s) (hClosing : s.threadClosing = false) (hAsleep : s.worker = .asleep)
    (hNobody : ∀ p, ¬(s.client p).InFlight) {p : ι} (hOwes : (place .request s (.client p)).Owes) : Serves s := by
  have hLeft : s.client p = .counted ∨ s.client p = .marked → Serves s := by
    intro hClient
    have hSpares := spares_step (.leave p hClient) trivial rfl rfl nofun (by rcases hClient with h | h <;> simp [h])
    refine ((live.reaches hSpares.reaches).serves_of_signalling (hSpares.reaches.frame.2.trans hClosing) hAsleep
      (fun q hq => hNobody q (hSpares.inFlight q hq)) (p := p) ?_).of_reaches hSpares.reaches
    exact Function.update_self ..
  cases hClient : s.client p with
  | counted => exact hLeft (.inl hClient)
  | marked => exact hLeft (.inr hClient)
  | signalling => exact live.serves_of_signalling hClosing hAsleep hNobody hClient
  | _ => simp [place, hClient, Client.place, Place.Owes] at hOwes

/-- A sleeping worker with a request in a queue is still owed a signal by some client. -/
theorem Live.serves_of_asleep (live : Live s) (hEnder : s.ender = .outside) (hClosing : s.threadClosing = false)
    (hAsleep : s.worker = .asleep) (hNobody : ∀ p, ¬(s.client p).InFlight) : Serves s := by
  rcases live.ready_or_empty hNobody (by simp [hAsleep, Worker.atomic]) with hReady | hEmpty
  · obtain ⟨thread, hOwes⟩ := (live.sound .request).owed (by simp [view, place, hAsleep, Worker.place]) hReady
    cases thread with
    | worker => simp [view, place, hAsleep, Worker.place, Place.Owes] at hOwes
    | ender => simp [view, place, hEnder, Ender.place, Place.Owes] at hOwes
    | client p => exact live.serves_of_owes hClosing hAsleep hNobody hOwes
  · exact ⟨s, .refl, hEmpty⟩

/-- A client in flight counts its request while the worker is away. -/
theorem Live.counts (live : Live s) (hWorker : ¬s.worker.place.Holds) {p : ι} (hInFlight : (s.client p).InFlight) :
    ∃ t, Calms s t ∧ ¬(t.client p).InFlight := by
  have hCounting {t : Threads ι Object} (hCalms : Calms s t) (hClient : t.client p = .counting) :
      ∃ u, Calms s u ∧ ¬(u.client p).InFlight :=
    ⟨_, hCalms.trans (calms_step (.count p hClient) trivial rfl rfl nofun), by simp [Threads.move, Client.InFlight]⟩
  have hPushed {t : Threads ι Object} (hCalms : Calms s t) (hClient : t.client p = .pushed) :
      ∃ u, Calms s u ∧ ¬(u.client p).InFlight := by
    obtain ⟨u, hSpares, hFree⟩ := (live.reaches hCalms.reaches).free_threadMtx (hCalms.worker ▸ hWorker)
    have hStill := hSpares.pushed p hClient
    have hEnter := calms_step (.enterCount p hStill hFree) trivial rfl rfl (by simp [hStill, Client.InFlight])
    exact hCounting ((hCalms.trans hSpares.toCalms).trans hEnter) (Function.update_self ..)
  cases hClient : s.client p with
  | requested =>
      have hRelease := calms_step (.release p hClient) trivial rfl rfl (by simp [hClient, Client.InFlight])
      exact hPushed hRelease (Function.update_self ..)
  | pushed => exact hPushed .refl hClient
  | counting => exact hCounting .refl hClient
  | _ => simp [hClient, Client.InFlight] at hInFlight

/-- All clients in flight count their requests, one after the other. -/
theorem Live.calms (live : Live s) (hWorker : ¬s.worker.place.Holds) :
    ∃ t, Calms s t ∧ ∀ p, ¬(t.client p).InFlight := by
  obtain ⟨actions, run⟩ := live.reachable
  obtain ⟨inFlight, hMem, -⟩ := balanced_of_runs run
  replace hMem : ∀ p, (s.client p).InFlight → p ∈ inFlight := fun p => (hMem p).mpr
  clear run actions
  induction inFlight using Finset.induction_on generalizing s with
  | empty => exact ⟨s, .refl, fun p hp => by simpa using hMem p hp⟩
  | insert p inFlight hNew ih =>
      obtain ⟨t, hCalms, hCounted⟩ : ∃ t, Calms s t ∧ ¬(t.client p).InFlight := by
        by_cases hp : (s.client p).InFlight
        · exact live.counts hWorker hp
        · exact ⟨s, .refl, hp⟩
      obtain ⟨u, hRest, hNobody⟩ := ih (live.reaches hCalms.reaches) (hCalms.worker ▸ hWorker) fun q hq => by
        have hNe : q ≠ p := by
          rintro rfl
          exact hCounted hq
        exact Finset.mem_of_mem_insert_of_ne (hMem q (hCalms.inFlight q hq)) hNe
      exact ⟨u, hCalms.trans hRest, hNobody⟩

/-- The worker is at its wait, and the clients in flight go on before it does. -/
theorem Live.serves_of_waiting (live : Live s) (hEnder : s.ender = .outside) (hClosing : s.threadClosing = false)
    (hWorker : s.worker = .entering ∨ s.worker = .woken ∨ s.worker = .asleep) : Serves s := by
  have hOut : ¬s.worker.place.Holds := by rcases hWorker with h | h | h <;> simp [h, Worker.place, Place.Holds]
  obtain ⟨t, hCalms, hNobody⟩ := live.calms hOut
  have hLive := live.reaches hCalms.reaches
  have hLater := hCalms.reaches.frame.2.trans hClosing
  rw [← hCalms.worker] at hWorker
  refine Serves.of_reaches hCalms.reaches ?_
  rcases hWorker with h | h | h
  · exact hLive.serves_of_entering hLater (.inl h) hNobody
  · exact hLive.serves_of_entering hLater (.inr h) hNobody
  · exact hLive.serves_of_asleep (hCalms.reaches.frame.1.trans hEnder) hLater h hNobody

/-- The worker about to sleep goes to sleep first and is then woken as one that sleeps. -/
theorem Live.serves_of_blocking (live : Live s) (hEnder : s.ender = .outside) (hClosing : s.threadClosing = false)
    (hWorker : s.worker = .blocking) : Serves s := by
  have hReaches := (Steps.sleep hWorker).reaches trivial
  exact ((live.reaches hReaches).serves_of_waiting hEnder hClosing (.inr (.inr rfl))).of_reaches hReaches

/-- While the pipeline is not being destroyed, no request is stuck: the clients that are in
their calls and the worker can go on to where the queues are empty, without another call
and without a spurious wake-up. -/
theorem requests_served (actions : List (Action ι Object)) (s : Threads ι Object) (run : Runs step init actions s)
    (hEnder : s.ender = .outside) :
    ∃ later t, Runs step s later t ∧ (∀ action ∈ later, action.Quiet) ∧ t.workPending = [] ∧ t.workRemoved = [] := by
  have live : Live s := ⟨⟨actions, run⟩, by simp [hEnder, Ender.place, Place.Holds]⟩
  have hOpen : ¬s.threadClosing = true := by simp [(closing_of_runs run).1, hEnder]
  have hClosing : s.threadClosing = false := by simpa using hOpen
  have hPasses (hPassing : s.worker.Passing) : Serves s := by
    obtain ⟨t, hReaches, hEntering⟩ := live.returns hPassing
    exact ((live.reaches hReaches).serves_of_waiting (hReaches.frame.1.trans hEnder) (hReaches.frame.2.trans hClosing)
      (.inl hEntering)).of_reaches hReaches
  have hServes : Serves s := by
    cases hWorker : s.worker with
    | entering => exact live.serves_of_waiting hEnder hClosing (.inl hWorker)
    | woken => exact live.serves_of_waiting hEnder hClosing (.inr (.inl hWorker))
    | asleep => exact live.serves_of_waiting hEnder hClosing (.inr (.inr hWorker))
    | blocking => exact live.serves_of_blocking hEnder hClosing hWorker
    | testing =>
        cases hReady : waitPredicate s with
        | true => exact live.serves_of_ready hClosing hWorker hReady
        | false =>
            have hReaches := (Steps.testFalse hWorker hReady).reaches trivial
            exact ((live.reaches hReaches).serves_of_blocking hEnder hClosing rfl).of_reaches hReaches
    | holding => exact live.serves_of_holding hClosing hWorker
    | starting => exact live.serves_of_starting (.inl hWorker)
    | draining => exact live.serves_of_starting (.inr hWorker)
    | finished => exact absurd ((closing_of_runs run).2 hWorker) hOpen
    | faulted => exact absurd hWorker live.running
    | _ => exact hPasses (hWorker ▸ trivial)
  obtain ⟨t, hReaches, hPending, hRemoved⟩ := hServes
  obtain ⟨later, runLater, hQuiet⟩ := hReaches.runs
  exact ⟨later, t, runLater, hQuiet, hPending, hRemoved⟩

/-- The worker sleeps, and a client has pushed a request that it has not counted. -/
def uncountedRun : List (Action Unit Unit) := [.enter, .test, .sleep, .request () (.add 5 ()), .push ()]

/-- A request pushed but not yet counted: the client can finish its call, and the worker serves
it. -/
theorem requests_served_uncountedRun :
    ∃ s : Threads Unit Unit, Runs step init uncountedRun s ∧ s.workPending = [(5, ())] ∧
      ∃ later t, Runs step s later t ∧ (∀ action ∈ later, action.Quiet) ∧ t.workPending = [] ∧ t.workRemoved = [] :=
  ⟨_, runs_iff_foldlM.mpr rfl, rfl, requests_served uncountedRun _ (runs_iff_foldlM.mpr rfl) rfl⟩

end ImpactSockets.AsyncPipeline.Locks
