import ImpactSockets.Utils.WorkerThread

/-! When the worker thread loses a wake-up. -/
namespace ImpactSockets.WorkerThread

open Transition

variable {ι : Type} {guarded : Bool} {s t : Threads ι}

/-! ### What a run leaves -/

/-- The holder of `m_thread_mtx_` is where it holds it, and the thread does not begin to
shut down while the worker is about to sleep. -/
structure Consistent (s : Threads ι) : Prop where
  worker : s.worker = .testing ∨ s.worker = .blocking ∨ s.worker = .holding → s.threadMtx = some .worker
  ender : s.ender = .locked ∨ s.ender = .set → s.threadMtx = some .ender
  running : s.worker = .blocking → s.shuttingDown = false

/-- The list has the producers that are in their call. -/
def Covers (callers : List ι) (s : Threads ι) : Prop := ∀ p, s.producer p ≠ .outside → p ∈ callers

/-- A notification keeps who holds the mutex. -/
theorem Consistent.notifyOne (hs : Consistent s) : Consistent (notifyOne s) := by
  unfold WorkerThread.notifyOne
  split_ifs
  · exact ⟨by simp, hs.ender, by simp⟩
  · exact hs

theorem notifyOne_producer (s : Threads ι) : (notifyOne s).producer = s.producer := by
  unfold notifyOne
  split_ifs <;> rfl

variable [DecidableEq ι] {action : Action ι}

theorem Consistent.move (hs : Consistent s) (p : ι) (producer : Producer) : Consistent (s.move p producer) :=
  ⟨hs.worker, hs.ender, hs.running⟩

/-- Every step keeps who holds the mutex, and that no thread shuts down past a worker about to
sleep. -/
theorem consistent_step (hs : Consistent s) (h : step guarded s action = some t) : Consistent t := by
  have hEnder := hs.ender
  have hWorker := hs.worker
  have hRunning := hs.running
  cases action with
  | lock p | change p | unlock p =>
      simp only [step] at h
      split at h <;> cases h <;> exact ⟨hWorker, hEnder, hRunning⟩
  | notify p =>
      simp only [step] at h
      split at h <;> cases h <;> exact (hs.move _ _).notifyOne
  | enter =>
      obtain ⟨⟨-, hFree⟩, rfl⟩ := by simpa [step] using h
      constructor <;> simp_all
  | test | sleep | spurious | proceed | begin | loop =>
      simp only [step] at h
      split_ifs at h <;> cases h <;> constructor <;> simp_all
  | work left =>
      obtain ⟨-, rfl⟩ := by simpa [step] using h
      exact ⟨hWorker, hEnder, hRunning⟩
  | endLock =>
      obtain ⟨⟨-, hFree⟩, rfl⟩ := by simpa [step] using h
      constructor <;> simp_all
  | endSet | endUnlock =>
      simp only [step] at h
      split_ifs at h
      cases h
      constructor <;> simp_all
  | endNotify =>
      obtain ⟨-, rfl⟩ := by simpa [step] using h
      exact Consistent.notifyOne ⟨hWorker, by simp, hRunning⟩

theorem Covers.move {callers : List ι} (h : Covers callers s) (p : ι) (producer : Producer) :
    Covers (p :: callers) (s.move p producer) := by
  intro q hq
  rcases eq_or_ne q p with rfl | hNe
  · exact List.mem_cons_self
  · refine List.mem_cons_of_mem _ (h q ?_)
    simpa [Threads.move, Function.update_of_ne hNe] using hq

/-- One step adds at most one producer to those in their calls. -/
theorem covers_step {callers : List ι} (hs : Covers callers s) (h : step guarded s action = some t) :
    ∃ callers, Covers callers t := by
  cases action with
  | lock p | change p | unlock p =>
      simp only [step] at h
      split at h <;> cases h <;> exact ⟨p :: callers, hs.move p _⟩
  | notify p =>
      refine ⟨p :: callers, ?_⟩
      simp only [step] at h
      split at h <;> cases h <;> rw [Covers, notifyOne_producer] <;> exact hs.move p _
  | endNotify =>
      obtain ⟨-, rfl⟩ := by simpa [step] using h
      exact ⟨callers, by rwa [Covers, notifyOne_producer]⟩
  | enter | test | sleep | spurious | proceed | begin | work left | loop | endLock | endSet | endUnlock =>
      simp only [step] at h
      split_ifs at h <;> cases h <;> exact ⟨callers, hs⟩

/-- A run starts with no producer in its call and its steps move one producer each. -/
theorem consistent_of_runs {actions : List (Action ι)} (run : Runs (step guarded) init actions s) :
    Consistent s ∧ ∃ callers, Covers callers s := by
  have hInit : Consistent (init : Threads ι) := ⟨by simp [init], by simp [init], by simp [init]⟩
  have hNone : Covers [] (init : Threads ι) := fun p hp => absurd rfl hp
  induction run with
  | nil => exact ⟨hInit, [], hNone⟩
  | snoc _ last ih =>
      obtain ⟨hConsistent, callers, hCovers⟩ := ih
      exact ⟨consistent_step hConsistent last, covers_step hCovers last⟩

/-! ### A late notification -/

/-- The worker is about to sleep although there is work. -/
def Late (s : Threads ι) : Prop := s.worker = .blocking ∧ s.hasWork = true ∧ s.shuttingDown = false

/-- A producer ends its call without waking the worker. -/
def Ends (guarded : Bool) (s : Threads ι) (p : ι) : Prop :=
  ∃ actions t, Runs (step guarded) s actions t ∧ Late t ∧ t.producer = Function.update s.producer p .outside

theorem ends_of_outside {p : ι} (hs : Late s) (hp : s.producer p = .outside) : Ends guarded s p := by
  refine ⟨[], s, Runs.nil, hs, ?_⟩
  rw [← hp, Function.update_eq_self]

/-- The call ends from where one step of the producer leads. -/
theorem Ends.of_step {p : ι} {producer : Producer} (h : step guarded s action = some t)
    (hMove : t.producer = Function.update s.producer p producer) (ends : Ends guarded t p) : Ends guarded s p := by
  obtain ⟨actions, finish, run, hLate, hFinish⟩ := ends
  refine ⟨_, finish, (Runs.nil.snoc h).append run, hLate, ?_⟩
  rw [hFinish, hMove, Function.update_idem]

/-- A producer behind its section has only the notification left, which wakes nobody yet. -/
theorem ends_of_released {p : ι} (hs : Late s) (hp : s.producer p = .released) : Ends guarded s p := by
  have hAwake : (s.move p .outside).worker ≠ .asleep := by simp [Threads.move, hs.1]
  have hStep : step guarded s (.notify p) = some (s.move p .outside) := by
    simp [step, hp, notifyOne_of_ne hAwake]
  exact Ends.of_step hStep rfl (ends_of_outside hs (by simp [Threads.move]))

theorem ends_of_notified {p : ι} (hs : Late s) (hp : s.producer p = .notified) : Ends guarded s p := by
  have hStep : step guarded s (.unlock p) = some { s.move p .outside with varMtx := none } := by simp [step, hp]
  exact Ends.of_step hStep rfl (ends_of_outside hs (by simp [Threads.move]))

/-- A producer that has made work unlocks first and then notifies. -/
theorem ends_of_changed {p : ι} (hs : Late s) (hp : s.producer p = .changed) : Ends guarded s p := by
  have hStep : step guarded s (.unlock p) = some { s.move p .released with varMtx := none } := by simp [step, hp]
  exact Ends.of_step hStep rfl (ends_of_released hs (by simp [Threads.move]))

/-- A producer that has just locked makes work first. -/
theorem ends_of_locked {p : ι} (hs : Late s) (hp : s.producer p = .locked) : Ends guarded s p := by
  have hStep : step guarded s (.change p) = some { s.move p .changed with hasWork := true } := by simp [step, hp]
  exact Ends.of_step hStep rfl (ends_of_changed ⟨hs.1, rfl, hs.2.2⟩ (by simp [Threads.move]))

/-- Wherever a producer is in its call, it can end it without waking the worker. -/
theorem ends_of_late (hs : Late s) (p : ι) : Ends guarded s p := by
  cases hp : s.producer p with
  | outside => exact ends_of_outside hs hp
  | locked => exact ends_of_locked hs hp
  | changed => exact ends_of_changed hs hp
  | notified => exact ends_of_notified hs hp
  | released => exact ends_of_released hs hp

/-- Once all producers have ended their calls, the worker falls asleep over the work. -/
theorem exists_lost_of_late (guarded : Bool) {callers : List ι} (hCovers : Covers callers s) (hs : Late s) :
    ∃ actions t, Runs (step guarded) s actions t ∧ Lost t := by
  induction callers generalizing s with
  | nil =>
      have hOutside : ∀ p, s.producer p = .outside := fun p => by
        by_contra h
        cases hCovers p h
      have hSleep : step guarded s .sleep = some { s with worker := .asleep, threadMtx := none } := by
        simp [step, hs.1]
      exact ⟨_, _, Runs.nil.snoc hSleep, rfl, hs.2.1, hOutside, hs.2.2⟩
  | cons p callers ih =>
      obtain ⟨before, middle, run, hMiddle, hEnded⟩ : Ends guarded s p := ends_of_late hs p
      have hRest : Covers callers middle := by
        intro q hq
        rw [hEnded] at hq
        rcases eq_or_ne q p with rfl | hNe
        · simp at hq
        · rw [Function.update_of_ne hNe] at hq
          exact (List.mem_cons.mp (hCovers q hq)).resolve_left hNe
      obtain ⟨later, t, runLater, hLost⟩ := ih hRest hMiddle
      exact ⟨_, t, run.append runLater, hLost⟩

/-- A notification in the window does not wake the worker, and the work may be lost. -/
theorem exists_lost_of_notify {actions : List (Action ι)} {p : ι} (run : Runs (step guarded) init actions s)
    (hWorker : s.worker = .blocking) (hWork : s.hasWork = true) (h : step guarded s (.notify p) = some t) :
    ∃ later u, Runs (step guarded) init (actions ++ .notify p :: later) u ∧ Lost u := by
  have runNext := run.snoc h
  have hLate : Late t := by
    have hs : Late s := ⟨hWorker, hWork, (consistent_of_runs run).1.running hWorker⟩
    have hAwake : ∀ producer, (s.move p producer).worker ≠ .asleep := by simp [Threads.move, hWorker]
    simp only [step] at h
    split at h <;> cases h <;> rw [notifyOne_of_ne (hAwake _)] <;> exact hs
  obtain ⟨callers, hCovers⟩ := (consistent_of_runs runNext).2
  obtain ⟨later, u, runLater, hLost⟩ := exists_lost_of_late guarded hCovers hLate
  refine ⟨later, u, ?_, hLost⟩
  simpa using runNext.append runLater

/-- No run in which every notification is in time loses work, and every other run could
have lost it after one of its steps. -/
theorem not_lost_of_notifiesInTime {actions : List (Action ι)} (run : Runs (step guarded) init actions s) :
    (EachStep (step guarded) init actions (fun _ => NotifiesInTime) →
        Throughout (step guarded) init actions fun _ reached => ¬Lost reached) ∧
      (¬EachStep (step guarded) init actions (fun _ => NotifiesInTime) →
        ∃ before later lost, before <+: actions ∧ Runs (step guarded) init (before ++ later) lost ∧ Lost lost) := by
  constructor
  · intro hEach before reached hPrefix runReached
    have hAnnounced : Throughout (step guarded) init actions fun _ => Announced := by
      refine throughout_of_eachStep (by simp [Announced, init]) ?_ hEach
      exact fun _ _ _ _ _ announced inTime h => announced_step announced inTime h
    exact not_lost_of_announced (hAnnounced before reached hPrefix runReached)
  · intro hLate
    obtain ⟨before, action, reached, hPrefix, runReached, p, rfl, hWorker, hWork⟩ :
        ∃ before action reached, before ++ [action] <+: actions ∧ Runs (step guarded) init before reached ∧
          ∃ p, action = .notify p ∧ reached.worker = .blocking ∧ reached.hasWork = true := by
      simpa [EachStep, NotifiesInTime] using hLate
    obtain ⟨next, runNext⟩ := run.passes hPrefix
    obtain ⟨middle, prior, hNotify⟩ := runNext.last
    cases prior.deterministic runReached
    obtain ⟨later, lost, runLost, hLost⟩ := exists_lost_of_notify prior hWorker hWork hNotify
    exact ⟨before, .notify p :: later, lost, (List.prefix_append _ _).trans hPrefix, runLost, hLost⟩

/-- A producer that notifies before the worker looks for work does so in time. -/
theorem not_lost_of_early_notification :
    Throughout (step true) (init : Threads Unit) [.lock (), .change (), .notify (), .unlock (), .enter, .test]
      fun _ reached => ¬Lost reached := by
  refine (not_lost_of_notifiesInTime (runs_iff_foldlM.mpr rfl)).1 ?_
  rintro before action s hPrefix run p rfl ⟨hWorker, -⟩
  obtain rfl : before = [.lock (), .change ()] := by
    rcases before with _ | ⟨a, _ | ⟨b, _ | ⟨c, _ | ⟨d, _ | ⟨e, _ | ⟨f, before⟩⟩⟩⟩⟩⟩ <;> simp_all
  cases runs_iff_foldlM.mp run
  cases hWorker

/-- The worker finds no work, a producer makes some and notifies, the worker falls asleep. -/
def lateNotification : List (Action Unit) :=
  [.enter, .test, .lock (), .change (), .notify (), .unlock (), .sleep]

/-- A notification between the test and the sleep is lost. -/
theorem lateNotification_lost :
    ¬∀ actions (s : Threads Unit), Runs (step true) init actions s → ¬Lost s := by
  intro h
  exact h lateNotification _ (runs_iff_foldlM.mpr rfl) ⟨rfl, rfl, fun _ => rfl, rfl⟩

end ImpactSockets.WorkerThread
