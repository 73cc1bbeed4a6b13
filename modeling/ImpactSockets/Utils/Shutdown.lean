import ImpactSockets.Library.Monitor
import ImpactSockets.Utils.LostWakeup

/-! How the worker thread shuts down. The flag is set under `m_thread_mtx_`, so this
signal is not lost, whatever becomes of those of the producers. -/
namespace ImpactSockets.WorkerThread

open Transition Monitor

variable {ι : Type} {guarded : Bool} {s t : Threads ι}

/-! ### The monitor of the flag -/

def Worker.place : Worker → Place
  | .testing | .holding => .inside
  | .blocking => .resolved
  | .asleep => .asleep
  | _ => .away

def Ender.place : Ender → Place
  | .locked => .inside
  | .set => .changed
  | .unlocked => .owing
  | _ => .away

/-- The worker waits for the flag, and a producer may wake it without. -/
def view (s : Threads ι) : Snapshot Holder where
  ready := s.shuttingDown = true
  holder := s.threadMtx
  place
    | .worker => s.worker.place
    | .ender => s.ender.place

/-- Only the worker has moved. -/
theorem goes_worker {there : Place} (hEnder : t.ender = s.ender) (hThere : t.worker.place = there) :
    Goes (view s) (view t) .worker there := by
  funext holder
  cases holder <;> simp [view, hEnder, hThere]

/-- Only the ending thread has moved. -/
theorem goes_ender {there : Place} (hWorker : t.worker = s.worker) (hThere : t.ender.place = there) :
    Goes (view s) (view t) .ender there := by
  funext holder
  cases holder <;> simp [view, hWorker, hThere]

/-- A step that changes neither the mutex nor the places of the two threads. -/
theorem moves_stay (hShutting : t.shuttingDown = s.shuttingDown) (hMtx : t.threadMtx = s.threadMtx)
    (hWorker : t.worker.place = s.worker.place) (hEnder : t.ender = s.ender) : Moves .worker (view s) (view t) := by
  refine .stay ?_ hMtx (congrArg (· = true) hShutting)
  funext holder
  cases holder <;> simp [view, hWorker, hEnder]

/-- A notification wakes the worker or does nothing. -/
theorem moves_notifyOne (s : Threads ι) : Moves .worker (view s) (view (notifyOne s)) := by
  unfold notifyOne
  split_ifs with hAsleep
  · exact .wake (by simp [view, hAsleep, Worker.place]) (goes_worker rfl rfl) rfl rfl
  · exact moves_stay rfl rfl rfl rfl

/-- After a notification the worker is not asleep. -/
theorem place_notifyOne (s : Threads ι) : (view (notifyOne s)).place .worker ≠ .asleep := by
  unfold notifyOne
  split_ifs with hAsleep
  · simp [view, Worker.place]
  · cases hWorker : s.worker <;> simp_all [view, Worker.place]

variable [DecidableEq ι] {action : Action ι}

omit [DecidableEq ι] in
/-- `_M_end` wakes the worker. -/
theorem moves_endNotify (hEnder : s.ender = .unlocked) :
    Relation.ReflTransGen (Moves .worker) (view s) (view (notifyOne { s with ender := .joining })) := by
  have hMove : notifyOne { s with ender := .joining } = { notifyOne s with ender := .joining } := by
    unfold notifyOne
    split_ifs <;> rfl
  have hOwing : (view (notifyOne s)).place .ender = .owing := by
    unfold notifyOne
    split_ifs <;> simp [view, hEnder, Ender.place]
  rw [hMove]
  exact (Relation.ReflTransGen.single (moves_notifyOne s)).tail
    (.signal .ender hOwing (place_notifyOne s) (goes_ender rfl rfl) rfl rfl)

/-- Every step is a sequence of moves of the monitor, at most two. -/
theorem view_moves (h : step guarded s action = some t) : Relation.ReflTransGen (Moves .worker) (view s) (view t) := by
  cases action with
  | lock p | change p | unlock p =>
      simp only [step] at h
      split at h <;> cases h <;> exact .single (moves_stay rfl rfl rfl rfl)
  | notify p =>
      simp only [step] at h
      split at h <;> cases h <;>
        exact (Relation.ReflTransGen.single (moves_stay rfl rfl rfl rfl)).tail (moves_notifyOne (s.move p _))
  | enter =>
      obtain ⟨⟨hWorker, hFree⟩, rfl⟩ := by simpa [step] using h
      have hAway : (view s).place .worker = .away := by rcases hWorker with h | h <;> simp [view, h, Worker.place]
      exact .single (.enter .worker hFree hAway (goes_worker rfl rfl) rfl rfl)
  | test =>
      simp only [step] at h
      split_ifs at h with hWorker hShutting hGuarded hWork <;> cases h
      · exact .single (moves_stay rfl rfl (by simp [hWorker, Worker.place]) rfl)
      · exact .single (moves_stay rfl rfl (by simp [hWorker, Worker.place]) rfl)
      · exact .single (.resolve (by simp [view, hWorker, Worker.place]) hShutting (goes_worker rfl rfl) rfl rfl)
  | sleep =>
      obtain ⟨hWorker, rfl⟩ := by simpa [step] using h
      exact .single (.sleep (by simp [view, hWorker, Worker.place]) (goes_worker rfl rfl) rfl rfl)
  | spurious =>
      obtain ⟨hWorker, rfl⟩ := by simpa [step] using h
      exact .single (.wake (by simp [view, hWorker, Worker.place]) (goes_worker rfl rfl) rfl rfl)
  | proceed =>
      simp only [step] at h
      split_ifs at h with hWorker hShutting <;> cases h <;>
        exact .single (.leave .worker (by simp [view, hWorker, Worker.place]) (goes_worker rfl rfl) rfl rfl)
  | begin =>
      obtain ⟨hWorker, rfl⟩ := by simpa [step] using h
      exact .single (moves_stay rfl rfl (by simp [hWorker, Worker.place]) rfl)
  | work left =>
      obtain ⟨hWorker, rfl⟩ := by simpa [step] using h
      exact .single (moves_stay rfl rfl rfl rfl)
  | loop =>
      simp only [step] at h
      split_ifs at h with hWorker hShutting <;> cases h <;>
        exact .single (moves_stay rfl rfl (by simp [hWorker, Worker.place]) rfl)
  | endLock =>
      obtain ⟨⟨hEnder, hFree⟩, rfl⟩ := by simpa [step] using h
      exact .single (.enter .ender hFree (by simp [view, hEnder, Ender.place]) (goes_ender rfl rfl) rfl rfl)
  | endSet =>
      obtain ⟨hEnder, rfl⟩ := by simpa [step] using h
      exact .single (.change .ender (by simp) (by simp [view, hEnder, Ender.place]) (goes_ender rfl rfl) rfl)
  | endUnlock =>
      obtain ⟨hEnder, rfl⟩ := by simpa [step] using h
      exact .single (.leaveOwing .ender (by simp [view, hEnder, Ender.place]) (goes_ender rfl rfl) rfl rfl)
  | endNotify =>
      obtain ⟨hEnder, rfl⟩ := by simpa [step] using h
      exact moves_endNotify hEnder

/-- The monitor of the thread mutex is sound in every run. -/
theorem view_sound {actions : List (Action ι)} (run : Runs (step guarded) init actions s) :
    Sound .worker (view s) := by
  refine sound_of_runs run ?_ rfl fun _ _ _ _ _ => view_moves
  intro holder
  cases holder <;> rfl

/-! ### What the worker still does -/

/-- The action is one of the worker's. -/
def Action.IsWorker : Action ι → Prop
  | .enter | .test | .sleep | .spurious | .proceed | .begin | .work _ | .loop => True
  | _ => False

/-- The worker ends after the actions, all of which are its own. -/
def Finishes (guarded : Bool) (s : Threads ι) (actions : List (Action ι)) : Prop :=
  (∃ t, Runs (step guarded) s actions t ∧ t.worker = .finished) ∧ ∀ action ∈ actions, action.IsWorker

/-- One step of the worker, after which it finishes. -/
theorem Finishes.of_step {actions : List (Action ι)} (h : step guarded s action = some t) (hWorker : action.IsWorker)
    (finishes : Finishes guarded t actions) : Finishes guarded s (action :: actions) := by
  obtain ⟨⟨finish, run, hFinished⟩, hAll⟩ := finishes
  exact ⟨⟨finish, (Runs.nil.snoc h).append run, hFinished⟩, List.forall_mem_cons.mpr ⟨hWorker, hAll⟩⟩

/-- How many passes the worker can still begin once the flag is set. -/
def Worker.due (worker : Worker) : Nat := if worker = .starting then 1 else 0

def Action.begins (action : Action ι) : Nat :=
  match action with
  | .begin => 1
  | _ => 0

/-- The worker is in a pass or right in front of it. -/
def Worker.InPass (worker : Worker) : Prop := worker = .starting ∨ worker = .working

/-- What a step does while the thread is shutting down: it begins a pass only if one is
due, makes none due, and leads nowhere into a pass. -/
structure Closing (s : Threads ι) (action : Action ι) (t : Threads ι) : Prop where
  shuttingDown : t.shuttingDown = true
  due : t.worker.due + action.begins ≤ s.worker.due
  inPass : t.worker.InPass → s.worker.InPass ∧ (action.IsWorker → action = .begin ∨ ∃ left, action = .work left)

omit [DecidableEq ι] in
/-- A step of another thread, which leaves the worker where it is or wakes it. -/
theorem closing_of_other (hShutting : t.shuttingDown = true) (hBegins : action.begins = 0) (hOther : ¬action.IsWorker)
    (hWorker : t.worker = s.worker ∨ t.worker = .woken) : Closing s action t := by
  rcases hWorker with hSame | hWoken
  · refine ⟨hShutting, ?_, fun hPass => ⟨hSame ▸ hPass, fun h => (hOther h).elim⟩⟩
    rw [hSame, hBegins]
    exact Nat.le_refl _
  · refine ⟨hShutting, ?_, fun hPass => ?_⟩
    · rw [hWoken, hBegins]
      exact Nat.zero_le _
    · rw [hWoken] at hPass
      rcases hPass with h | h <;> cases h

omit [DecidableEq ι] in
theorem worker_notifyOne (s : Threads ι) : (notifyOne s).worker = s.worker ∨ (notifyOne s).worker = .woken := by
  unfold notifyOne
  split_ifs
  · exact .inr rfl
  · exact .inl rfl

omit [DecidableEq ι] in
theorem shuttingDown_notifyOne (s : Threads ι) : (notifyOne s).shuttingDown = s.shuttingDown := by
  unfold notifyOne
  split_ifs <;> rfl

/-- Each step of the worker after the flag is set. -/
theorem closing_step (h : step guarded s action = some t) (hShutting : s.shuttingDown = true) : Closing s action t := by
  cases action with
  | notify p =>
      simp only [step] at h
      split at h <;> cases h
      all_goals
        exact closing_of_other ((shuttingDown_notifyOne _).trans hShutting) rfl (fun h => h) (worker_notifyOne _)
  | endNotify =>
      obtain ⟨-, rfl⟩ := by simpa [step] using h
      exact closing_of_other ((shuttingDown_notifyOne _).trans hShutting) rfl (fun h => h) (worker_notifyOne _)
  | lock p | change p | unlock p =>
      simp only [step] at h
      split at h <;> cases h
      all_goals exact closing_of_other hShutting rfl (fun h => h) (.inl rfl)
  | endLock | endSet | endUnlock =>
      simp only [step] at h
      split_ifs at h
      cases h
      exact closing_of_other (by simp [hShutting]) rfl (fun h => h) (.inl rfl)
  | begin =>
      obtain ⟨hWorker, rfl⟩ := by simpa [step] using h
      exact ⟨hShutting, by simp [Worker.due, hWorker, Action.begins], fun _ => ⟨.inl hWorker, fun _ => .inl rfl⟩⟩
  | work left =>
      obtain ⟨hWorker, rfl⟩ := by simpa [step] using h
      exact ⟨hShutting, Nat.le_refl _, fun _ => ⟨.inr hWorker, fun _ => .inr ⟨left, rfl⟩⟩⟩
  | enter | test | sleep | spurious | proceed | loop =>
      -- with the flag set none of these leads into a pass
      simp only [step] at h
      split_ifs at h
      all_goals cases h
      all_goals exact ⟨by simp_all, by simp [Worker.due, Action.begins], fun hPass => by simp_all [Worker.InPass]⟩

/-- The steps of a run that begin a pass. -/
def passesBegun : List (Action ι) → Nat
  | [] => 0
  | action :: actions => action.begins + passesBegun actions

omit [DecidableEq ι] in
/-- One more action, which may begin a pass. -/
theorem passesBegun_concat (actions : List (Action ι)) (action : Action ι) :
    passesBegun (actions ++ [action]) = passesBegun actions + action.begins := by
  induction actions with
  | nil => exact Nat.add_comm _ _
  | cons first actions ih => rw [List.cons_append, passesBegun, passesBegun, ih, Nat.add_assoc]

/-- After the flag is set, the passes that have begun and the one that is due do not grow in
number. -/
theorem closing_of_runs {later : List (Action ι)} (run : Runs (step guarded) s later t)
    (hShutting : s.shuttingDown = true) :
    t.shuttingDown = true ∧ t.worker.due + passesBegun later ≤ s.worker.due ∧
      (t.worker.InPass → ∀ action ∈ later, action.IsWorker → action = .begin ∨ ∃ left, action = .work left) := by
  induction run with
  | nil => exact ⟨hShutting, Nat.le_refl _, by simp⟩
  | snoc prior last ih =>
      obtain ⟨hStill, hDue, hOnlyPass⟩ := ih
      have closing := closing_step last hStill
      refine ⟨closing.shuttingDown, ?_, fun hPass action hMem hWorker => ?_⟩
      · have hStep := closing.due
        rw [passesBegun_concat]
        omega
      · obtain ⟨hWas, hLast⟩ := closing.inPass hPass
        rcases List.mem_append.mp hMem with hOld | hNew
        · exact hOnlyPass hWas action hOld hWorker
        · rw [List.mem_singleton] at hNew
          exact hNew ▸ hLast (hNew ▸ hWorker)

/-- From the moment at which `_M_end` sets the flag at most one `_M_dowork` is entered, and
only if the worker had released the mutex for it before. Where the worker is in one, it has
only entered it and been at work since. -/
theorem last_pass_begins (guarded : Bool) (before later : List (Action ι)) (middle s : Threads ι)
    (prior : Runs (step guarded) init before middle)
    (run : Runs (step guarded) init (before ++ .endSet :: later) s) :
    passesBegun later ≤ (if middle.worker = .starting then 1 else 0) ∧
      (s.worker = .working → ∀ action ∈ later, action.IsWorker → action = .begin ∨ ∃ left, action = .work left) := by
  obtain ⟨reached, runBefore, runLater⟩ := run.split
  cases prior.deterministic runBefore
  obtain ⟨shutting, runSet, runRest⟩ :=
    (List.singleton_append ▸ runLater : Runs (step guarded) middle ([.endSet] ++ later) s).split
  have hSet : step guarded middle .endSet = some shutting := by simpa using runs_iff_foldlM.mp runSet
  obtain ⟨-, rfl⟩ := by simpa [step] using hSet
  obtain ⟨-, hDue, hPass⟩ := closing_of_runs runRest rfl
  exact ⟨(Nat.le_add_left _ _).trans hDue, fun hWorking => hPass (.inr hWorking)⟩

/-- The flag is set between the release of the mutex and the call of `_M_dowork`. -/
def endBeforePass : List (Action Unit) :=
  [.lock (), .change (), .notify (), .unlock (), .enter, .test, .proceed, .endLock]

def lastPass : List (Action Unit) := [.begin, .work true, .endUnlock, .work false]

/-- The flag is set between the mutex and the pass. -/
theorem last_pass_begins_endBeforePass :
    ∃ middle s : Threads Unit, Runs (step true) init endBeforePass middle ∧
      Runs (step true) init (endBeforePass ++ .endSet :: lastPass) s ∧ passesBegun lastPass = 1 ∧
      passesBegun lastPass ≤ (if middle.worker = .starting then 1 else 0) :=
  ⟨_, _, runs_iff_foldlM.mpr rfl, runs_iff_foldlM.mpr rfl, rfl,
    (last_pass_begins true endBeforePass lastPass _ _ (runs_iff_foldlM.mpr rfl) (runs_iff_foldlM.mpr rfl)).1⟩

end ImpactSockets.WorkerThread
