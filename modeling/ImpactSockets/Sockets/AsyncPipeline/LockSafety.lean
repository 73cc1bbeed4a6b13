import ImpactSockets.Sockets.AsyncPipeline.LockRefinement

/-! What the locks of the pipeline guarantee in every order of the threads' steps. -/
namespace ImpactSockets.AsyncPipeline.Locks

open Transition Monitor

variable {ι Object : Type} {s t : Threads ι Object} {action : Action ι Object}

/-! ### `m_work_mtx_` -/

def Worker.workPlace : Worker → Place
  | .draining | .drained _ => .inside
  | _ => .away

def Client.workPlace : Client Object → Place
  | .requesting _ | .requested => .inside
  | _ => .away

def workPlace (s : Threads ι Object) : Thread ι → Place
  | .worker => s.worker.workPlace
  | .client p => (s.client p).workPlace
  | .ender => .away

/-- Nobody waits for anything at `m_work_mtx_`. -/
def workView (s : Threads ι Object) : Snapshot (Thread ι) where
  ready := False
  holder := s.workMtx
  place := workPlace s

theorem workPlace_notifyCv (s : Threads ι Object) : (notifyCv s).worker.workPlace = s.worker.workPlace := by
  unfold notifyCv
  split_ifs with hAsleep
  · simp [hAsleep, Worker.workPlace]
  · rfl

theorem workMtx_notifyCv (s : Threads ι Object) : (notifyCv s).workMtx = s.workMtx := by
  unfold notifyCv
  split_ifs <;> rfl

variable [DecidableEq ι]

theorem goes_client {p : ι} {client : Client Object} {there : Place}
    (hClient : t.client = Function.update s.client p client) (hWorker : t.worker = s.worker)
    (hThere : client.workPlace = there) : Goes (workView s) (workView t) (.client p) there := by
  funext thread
  cases thread with
  | worker => simp [workView, workPlace, hWorker]
  | ender => simp [workView, workPlace]
  | client q =>
      rcases eq_or_ne q p with rfl | hNe
      · simp [workView, workPlace, hClient, hThere]
      · simp [workView, workPlace, hClient, hNe]

theorem goes_worker {there : Place} (hClient : t.client = s.client) (hThere : t.worker.workPlace = there) :
    Goes (workView s) (workView t) .worker there := by
  funext thread
  cases thread <;> simp [workView, workPlace, hClient, hThere]

/-- A step outside of the mutex, or from one point of its scope to another. -/
theorem moves_same (hMtx : t.workMtx = s.workMtx) (hWorker : t.worker.workPlace = s.worker.workPlace)
    (hClient : ∀ p, (t.client p).workPlace = (s.client p).workPlace) : Moves .worker (workView s) (workView t) := by
  refine .stay ?_ hMtx rfl
  funext thread
  cases thread <;> simp [workView, workPlace, hWorker, hClient]

theorem workPlace_move {p q : ι} {client : Client Object} (hSame : client.workPlace = (s.client p).workPlace) :
    (Function.update s.client p client q).workPlace = (s.client q).workPlace := by
  rcases eq_or_ne q p with rfl | hNe
  · simpa using hSame
  · rw [Function.update_of_ne hNe]

/-- Every step is a move of the monitor of the work mutex. -/
theorem workView_moves (h : Steps s action t) (hRunning : t.worker ≠ .faulted) :
    Moves .worker (workView s) (workView t) := by
  cases h with
  | request p request hClient hAccepted hFree =>
      exact .enter (.client p) hFree (by simp [workView, workPlace, hClient, Client.workPlace])
        (goes_client rfl rfl rfl) rfl rfl
  | push p request hClient =>
      cases request <;> exact moves_same rfl rfl fun q => workPlace_move (by simp [hClient, Client.workPlace])
  | release p hClient =>
      exact .leave (.client p) (by simp [workView, workPlace, hClient, Client.workPlace])
        (goes_client rfl rfl rfl) rfl rfl
  | enterCount p hClient | count p hClient | enterMark p hClient | mark p hClient =>
      exact moves_same rfl rfl fun q => workPlace_move (by simp [hClient, Client.workPlace])
  | leave p hClient =>
      refine moves_same rfl rfl fun q => workPlace_move ?_
      rcases hClient with hClient | hClient <;> simp [hClient, Client.workPlace]
  | signal p hClient =>
      refine moves_same (workMtx_notifyCv _) (workPlace_notifyCv _) fun q => ?_
      rw [client_notifyCv]
      exact workPlace_move (by simp [hClient, Client.workPlace])
  | enterDrain hWorker hFree =>
      exact .enter .worker hFree (by simp [workView, workPlace, hWorker, Worker.workPlace])
        (goes_worker rfl rfl) rfl rfl
  | drain work hWorker => exact moves_same rfl (by simp [hWorker, Worker.workPlace]) fun _ => rfl
  | drainFault hWorker => exact absurd rfl hRunning
  | callbackFault answer satisfied cursor key hWorker => exact absurd rfl hRunning
  | leaveDrain satisfied hWorker =>
      exact .leave .worker (by simp [workView, workPlace, hWorker, Worker.workPlace]) (goes_worker rfl rfl) rfl rfl
  | enter hWorker =>
      refine moves_same rfl ?_ fun _ => rfl
      rcases hWorker with hWorker | hWorker <;> simp [hWorker, Worker.workPlace]
  | testTrue hWorker | testFalse hWorker | sleep hWorker | spurious hWorker | finish hWorker | proceed hWorker
  | poll revents satisfied hWorker | callback answer satisfied cursor next key work hWorker
  | endUpdate satisfied cursor hWorker | enterStore satisfied hasWork hWorker | store satisfied hasWork hWorker
  | leaveStore hWorker =>
      exact moves_same rfl (by simp [hWorker, Worker.workPlace]) fun _ => rfl
  | endLock | endSet | endUnlock | endJoin => exact moves_same rfl rfl fun _ => rfl
  | endNotify =>
      refine moves_same (workMtx_notifyCv _) (workPlace_notifyCv _) fun q => ?_
      rw [client_notifyCv]

/-- The worker does not meet a missing entry of its containers. -/
theorem not_faulted_of_runs {actions : List (Action ι Object)} (run : Runs step init actions s) :
    s.worker ≠ .faulted := by
  obtain ⟨p, runSections, hs⟩ := locks_refine run
  obtain ⟨inFlight, -, rfl⟩ := hs.members
  have hRunning := (AsyncPipeline.reachable_valid _ _ runSections).2.2
  intro hFaulted
  simp [pipeline, hFaulted, Worker.atomic] at hRunning

/-- The monitor of the work mutex is sound in every run. -/
theorem workView_sound {actions : List (Action ι Object)} (run : Runs step init actions s) :
    Monitor.Sound .worker (workView s) := by
  refine Monitor.sound_of_runs run ?_ rfl ?_
  · intro thread
    cases thread <;> rfl
  · intro actions action s t prior h
    exact .single (workView_moves (steps_of_step h) (not_faulted_of_runs (prior.snoc h)))

/-! ### What the mutexes guard -/

/-- The thread that takes the step. -/
def Action.actor : Action ι Object → Thread ι
  | .request p _ | .push p | .release p | .enterCount p | .count p | .enterMark p | .mark p | .leave p | .signal p =>
      .client p
  | .endLock | .endSet | .endUnlock | .endNotify | .endJoin => .ender
  | _ => .worker

/-- The thread is in a scope of `m_thread_mtx_`. -/
def InThreadScope (s : Threads ι Object) (thread : Thread ι) : Prop := (place .request s thread).Holds

/-- The thread is in a scope of `m_work_mtx_`. -/
def InWorkScope (s : Threads ι Object) (thread : Thread ι) : Prop := (workPlace s thread).Holds

omit [DecidableEq ι] in
theorem members_notifyCv (s : Threads ι Object) :
    (notifyCv s).threadClosing = s.threadClosing ∧ (notifyCv s).threadHasWork = s.threadHasWork ∧
      (notifyCv s).threadPending = s.threadPending ∧ (notifyCv s).work = s.work ∧
      (notifyCv s).workPending = s.workPending ∧ (notifyCv s).workRemoved = s.workRemoved := by
  unfold notifyCv
  split_ifs <;> exact ⟨rfl, rfl, rfl, rfl, rfl, rfl⟩

/-- Who writes the members of the thread is in a scope of its mutex. -/
theorem inThreadScope_of_write (h : Steps s action t)
    (hWrite : (t.threadClosing, t.threadHasWork, t.threadPending) ≠
      (s.threadClosing, s.threadHasWork, s.threadPending)) :
    InThreadScope s action.actor := by
  cases h with
  | count p hClient | mark p hClient => exact .inl (by simp [place, Action.actor, hClient, Client.place])
  | store satisfied hasWork hWorker => exact .inl (by simp [place, Action.actor, hWorker, Worker.place])
  | endSet hEnder => exact .inl (by simp [place, Action.actor, hEnder, Ender.place])
  | signal p hClient =>
      obtain ⟨hClosing, hHasWork, hPending, -⟩ := members_notifyCv (s.move p .outside)
      exact absurd (by rw [hClosing, hHasWork, hPending]; rfl) hWrite
  | endNotify hEnder =>
      obtain ⟨hClosing, hHasWork, hPending, -⟩ := members_notifyCv { s with ender := .joining }
      exact absurd (by rw [hClosing, hHasWork, hPending]) hWrite
  | push p request => cases request <;> exact absurd rfl hWrite
  | _ => exact absurd rfl hWrite

/-- Who writes the queues is in a scope of theirs. -/
theorem inWorkScope_of_write (h : Steps s action t)
    (hWrite : (t.workPending, t.workRemoved) ≠ (s.workPending, s.workRemoved)) : InWorkScope s action.actor := by
  cases h with
  | push p request hClient => exact .inl (by simp [workPlace, Action.actor, hClient, Client.workPlace])
  | drain work hWorker => exact .inl (by simp [workPlace, Action.actor, hWorker, Worker.workPlace])
  | signal p hClient =>
      obtain ⟨-, -, -, -, hPending, hRemoved⟩ := members_notifyCv (s.move p .outside)
      exact absurd (by rw [hPending, hRemoved]; rfl) hWrite
  | endNotify hEnder =>
      obtain ⟨-, -, -, -, hPending, hRemoved⟩ := members_notifyCv { s with ender := .joining }
      exact absurd (by rw [hPending, hRemoved]) hWrite
  | _ => exact absurd rfl hWrite

/-- Only the worker writes its own tables. -/
theorem actor_of_write (h : Steps s action t) (hWrite : t.work ≠ s.work) : action.actor = .worker := by
  cases h with
  | drain | poll | callback => rfl
  | signal p hClient => exact absurd (members_notifyCv (s.move p .outside)).2.2.2.1 hWrite
  | endNotify hEnder => exact absurd (members_notifyCv { s with ender := .joining }).2.2.2.1 hWrite
  | push p request => cases request <;> exact absurd rfl hWrite
  | _ => exact absurd rfl hWrite

/-- In every order of the steps of the worker, the clients and the destructor, two threads
are never in scopes of one mutex, the members are written only in a scope of the mutex that
guards them and the containers only by the worker, and the worker never meets a missing entry. -/
theorem locks_safe (actions : List (Action ι Object)) (s : Threads ι Object) (run : Runs step init actions s) :
    (∀ thread other, InThreadScope s thread → InThreadScope s other → thread = other) ∧
      (∀ thread other, InWorkScope s thread → InWorkScope s other → thread = other) ∧
      s.worker ≠ .faulted ∧
      ∀ action t, step s action = some t →
        ((t.threadClosing, t.threadHasWork, t.threadPending) ≠ (s.threadClosing, s.threadHasWork, s.threadPending) →
            InThreadScope s action.actor) ∧
          ((t.workPending, t.workRemoved) ≠ (s.workPending, s.workRemoved) → InWorkScope s action.actor) ∧
          (t.work ≠ s.work → action.actor = .worker) := by
  refine ⟨fun _ _ h hOther => (view_sound .request run).exclusive h hOther,
    fun _ _ h hOther => (workView_sound run).exclusive h hOther, not_faulted_of_runs run, fun action t h => ?_⟩
  have hSteps := steps_of_step h
  exact ⟨inThreadScope_of_write hSteps, inWorkScope_of_write hSteps, actor_of_write hSteps⟩

/-- The worker between its scopes while the clients are in their calls. -/
theorem locks_safe_busyRun :
    ∃ s : Threads Bool Unit, Runs step init busyRun s ∧ s.worker = .drained 2 ∧
      ∀ thread other, InWorkScope s thread → InWorkScope s other → thread = other :=
  ⟨_, runs_iff_foldlM.mpr rfl, rfl, (locks_safe busyRun _ (runs_iff_foldlM.mpr rfl)).2.1⟩

end ImpactSockets.AsyncPipeline.Locks
