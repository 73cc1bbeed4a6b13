import ImpactSockets.Sockets.AsyncPipeline.LockSafety

/-! The worker of the pipeline sleeps over no request and over no shutdown. -/
namespace ImpactSockets.AsyncPipeline.Locks

open Transition Monitor

variable {ι Object : Type} {s t : Threads ι Object} {action : Action ι Object}

/-- The client has pushed a request or set the flag, and has not woken the worker yet. -/
def Client.Pending : Client Object → Prop
  | .requested | .pushed | .counting | .counted | .marked | .signalling => True
  | _ => False

/-- The destructor has closed the pipeline and has not woken the worker yet. -/
def Ender.Pending : Ender → Prop
  | .set | .unlocked => True
  | _ => False

/-- A thread that owes a signal is in the part of its call that ends with the signal. -/
theorem pending_of_owes {thread : Thread ι} (h : (place .request s thread).Owes) :
    (∃ p, thread = .client p ∧ (s.client p).Pending) ∨ thread = .ender ∧ s.ender.Pending := by
  cases thread with
  | worker => cases hWorker : s.worker <;> simp [place, hWorker, Worker.place, Place.Owes] at h
  | client p =>
      refine .inl ⟨p, rfl, ?_⟩
      cases hClient : s.client p <;> simp [place, hClient, Client.place, Place.Owes, Client.Pending] at h ⊢
  | ender =>
      refine .inr ⟨rfl, ?_⟩
      cases hEnder : s.ender <;> simp [place, hEnder, Ender.place, Place.Owes, Ender.Pending] at h ⊢

theorem Client.pending_of_inFlight {client : Client Object} (h : client.InFlight) : client.Pending := by
  cases client <;> trivial

variable [DecidableEq ι]

/-- The counter balances the queues, whichever thread is where. -/
theorem balanced_of_runs {actions : List (Action ι Object)} (run : Runs step init actions s) :
    ∃ inFlight : Finset ι, (∀ p, p ∈ inFlight ↔ (s.client p).InFlight) ∧
      s.threadPending + inFlight.card =
        s.workPending.length + s.workRemoved.length + (s.worker.atomic s.threadClosing).unsubtracted := by
  obtain ⟨p, runSections, hs⟩ := locks_refine run
  obtain ⟨inFlight, hMem, rfl⟩ := hs.members
  exact ⟨inFlight, hMem, AsyncPipeline.balanced_of_runs runSections⟩

/-- A worker that sleeps while no client and no destructor is about to wake it has nothing
to do: no request is queued, the flag is not set and the pipeline is not closing. -/
theorem asleep_has_nothing (actions : List (Action ι Object)) (s : Threads ι Object)
    (run : Runs step init actions s) (hAsleep : s.worker = .asleep) (hClients : ∀ p, ¬(s.client p).Pending)
    (hEnder : ¬s.ender.Pending) :
    s.workPending = [] ∧ s.workRemoved = [] ∧ s.threadPending = 0 ∧ s.threadHasWork = false ∧
      s.threadClosing = false := by
  have hUnready : ¬waitPredicate s = true := by
    refine (view_sound .request run).not_ready (by simp [view, place, hAsleep, Worker.place]) fun thread hOwes => ?_
    rcases pending_of_owes hOwes with ⟨p, rfl, hPending⟩ | ⟨rfl, hPending⟩
    · exact hClients p hPending
    · exact hEnder hPending
  obtain ⟨inFlight, hMem, hBalanced⟩ := balanced_of_runs run
  have hNone : inFlight = ∅ := by
    ext p
    simp only [hMem, Finset.notMem_empty, iff_false]
    exact fun h => hClients p (Client.pending_of_inFlight h)
  simp only [waitPredicate, Bool.or_eq_true, decide_eq_true_eq, not_or, Bool.not_eq_true, not_lt] at hUnready
  obtain ⟨⟨hClosing, hHasWork⟩, hPending⟩ := hUnready
  simp only [hNone, hAsleep, Worker.atomic, AsyncPipeline.Worker.unsubtracted, Finset.card_empty] at hBalanced
  refine ⟨List.eq_nil_of_length_eq_zero ?_, List.eq_nil_of_length_eq_zero ?_, ?_, hHasWork, hClosing⟩ <;> omega

/-- A request and a pass that serves it, after which the worker falls asleep again. -/
def servedRun : List (Action Unit Unit) :=
  [.enter, .test, .sleep, .request () (.add 5 ()), .push (), .release (), .enterCount (), .count (), .leave (),
    .signal (), .enter, .test, .proceed, .enterDrain, .drain, .leaveDrain, .poll fun _ => 1,
    .callback ⟨.ignore, pollIn⟩, .endUpdate, .enterStore, .store, .leaveStore, .enter, .test, .sleep]

theorem asleep_has_nothing_servedRun :
    ∃ s : Threads Unit Unit, Runs step init servedRun s ∧ s.work.handles = [⟨-5, 1, 0⟩] ∧
      (s.workPending = [] ∧ s.workRemoved = [] ∧ s.threadPending = 0 ∧ s.threadHasWork = false ∧
        s.threadClosing = false) :=
  ⟨_, runs_iff_foldlM.mpr rfl, rfl,
    asleep_has_nothing servedRun _ (runs_iff_foldlM.mpr rfl) rfl (fun _ => id) id⟩

/-! ### Closing -/

/-- The pipeline is closing since the destructor said so, and its thread has not ended before. -/
theorem closing_of_runs {actions : List (Action ι Object)} (run : Runs step init actions s) :
    (s.threadClosing = true ↔ s.ender ≠ .outside ∧ s.ender ≠ .locked) ∧
      (s.worker = .finished → s.threadClosing = true) := by
  refine @Runs.invariant _ _ step init (fun s => (s.threadClosing = true ↔ s.ender ≠ .outside ∧ s.ender ≠ .locked) ∧
      (s.worker = .finished → s.threadClosing = true)) _ _ run (by simp [init]) ?_
  rintro action s t ⟨hClosing, hFinished⟩ h
  cases steps_of_step h with
  | endLock hEnder | endUnlock hEnder | endJoin hEnder => exact ⟨by simp [hClosing, hEnder], hFinished⟩
  | endSet => exact ⟨by simp, fun _ => rfl⟩
  | endNotify hEnder =>
      unfold notifyCv
      split_ifs
      · exact ⟨by simp [hClosing, hEnder], by simp⟩
      · exact ⟨by simp [hClosing, hEnder], hFinished⟩
  | signal p =>
      unfold notifyCv
      split_ifs
      · exact ⟨hClosing, by simp⟩
      · exact ⟨hClosing, hFinished⟩
  | push p request => cases request <;> exact ⟨hClosing, hFinished⟩
  | finish _ hTrue => exact ⟨hClosing, fun _ => hTrue⟩
  | request | release | enterCount | count | enterMark | mark | leave => exact ⟨hClosing, hFinished⟩
  | _ => exact ⟨hClosing, by simp⟩

/-- Once the destructor waits for its thread, the worker is not asleep and does not fall asleep. -/
theorem awake_of_joining {actions : List (Action ι Object)} (run : Runs step init actions s)
    (hEnder : s.ender = .joining ∨ s.ender = .joined) : s.worker ≠ .asleep ∧ s.worker ≠ .blocking := by
  have sound := view_sound .closing run
  have hClosing : s.threadClosing = true := by
    rw [(closing_of_runs run).1]
    rcases hEnder with h | h <;> simp [h]
  constructor
  · intro hAsleep
    refine sound.not_ready (by simp [view, place, hAsleep, Worker.place]) (fun thread hOwes => ?_) hClosing
    cases thread with
    | worker => simp [view, place, hAsleep, Worker.place, Place.Owes] at hOwes
    | client p => cases hClient : s.client p <;> simp [view, place, hClient, Client.place, Place.Owes] at hOwes
    | ender => rcases hEnder with h | h <;> simp [view, place, h, Ender.place, Place.Owes] at hOwes
  · intro hBlocking
    exact sound.unready (by simp [view, place, hBlocking, Worker.place]) hClosing

/-- The two kinds of sections of a pass that are counted. -/
inductive Section where
  | drain
  | poll

/-- The sections of the kind that the worker is still to make before its next test. -/
def Worker.left (kind : Section) : Worker → Nat
  | .starting | .draining => 1
  | .drained _ | .polling _ =>
      match kind with
      | .drain => 0
      | .poll => 1
  | _ => 0

def Action.isSection (kind : Section) : Action ι Object → Bool
  | .drain =>
      match kind with
      | .drain => true
      | .poll => false
  | .poll _ =>
      match kind with
      | .drain => false
      | .poll => true
  | _ => false

/-- While the pipeline closes, no test begins another pass. -/
theorem left_of_steps (kind : Section) (h : Steps s action t) (hClosing : s.threadClosing = true) :
    t.threadClosing = true ∧ (action.isSection kind).toNat + t.worker.left kind ≤ s.worker.left kind := by
  cases h with
  | proceed _ hOpen => simp [hClosing] at hOpen
  | endSet => exact ⟨rfl, by simp [Action.isSection]⟩
  | drain work hWorker | drainFault hWorker | leaveDrain satisfied hWorker | poll revents satisfied hWorker
  | callback answer satisfied cursor next key work hWorker | callbackFault answer satisfied cursor key hWorker
  | endUpdate satisfied cursor hWorker | enterStore satisfied hasWork hWorker | store satisfied hasWork hWorker
  | leaveStore hWorker | enterDrain hWorker | testTrue hWorker | testFalse hWorker | sleep hWorker | spurious hWorker
  | finish hWorker =>
      exact ⟨hClosing, by cases kind <;> simp [hWorker, Action.isSection, Worker.left]⟩
  | enter hWorker =>
      exact ⟨hClosing, by rcases hWorker with h | h <;> simp [h, Action.isSection, Worker.left]⟩
  | signal p =>
      unfold notifyCv
      split_ifs <;> exact ⟨hClosing, by simp [Action.isSection, Worker.left, Threads.move]⟩
  | endNotify =>
      unfold notifyCv
      split_ifs <;> exact ⟨hClosing, by simp [Action.isSection, Worker.left]⟩
  | push p request => cases request <;> exact ⟨hClosing, by simp [push, Threads.move, Action.isSection]⟩
  | _ => exact ⟨hClosing, by simp [Threads.move, Action.isSection]⟩

theorem left_of_runs (kind : Section) {later : List (Action ι Object)} (run : Runs step s later t)
    (hClosing : s.threadClosing = true) :
    t.threadClosing = true ∧ later.countP (Action.isSection kind) + t.worker.left kind ≤ s.worker.left kind := by
  induction run with
  | nil => exact ⟨hClosing, by simp⟩
  | snoc prior last ih =>
      obtain ⟨hStill, hLeft⟩ := ih
      obtain ⟨hNext, hStep⟩ := left_of_steps kind (steps_of_step last) hStill
      refine ⟨hNext, ?_⟩
      rw [List.countP_append, List.countP_singleton]
      split_ifs with hSection
      · rw [hSection, Bool.toNat_true] at hStep
        omega
      · omega

/-- From the moment at which the destructor closes the pipeline, its thread empties the queues
at most once more and polls at most once more, whatever is requested meanwhile. -/
theorem last_pass (before later : List (Action ι Object)) (s : Threads ι Object)
    (run : Runs step init (before ++ .endSet :: later) s) (kind : Section) :
    later.countP (Action.isSection kind) ≤ 1 := by
  obtain ⟨middle, -, runLater⟩ := run.split
  obtain ⟨closed, runSet, runRest⟩ := (List.singleton_append ▸ runLater : Runs step middle ([.endSet] ++ later) s).split
  have hClosing : closed.threadClosing = true := by
    cases steps_of_step (by simpa using runs_iff_foldlM.mp runSet)
    rfl
  have hLeft := (left_of_runs kind runRest hClosing).2
  have hOne : closed.worker.left kind ≤ 1 := by
    unfold Worker.left
    split <;> cases kind <;> simp
  omega

/-- The worker has left its test when the pipeline is closed, and a request comes in afterwards. -/
def lateClose : List (Action Unit Unit) :=
  [.enterMark (), .mark (), .leave (), .signal (), .enter, .test, .proceed, .endLock]

def afterClose : List (Action Unit Unit) :=
  [.request () (.add 5 ()), .push (), .release (), .enterDrain, .drain, .leaveDrain, .endUnlock, .poll fun _ => 1]

theorem last_pass_lateClose :
    ∃ s : Threads Unit Unit, Runs step init (lateClose ++ .endSet :: afterClose) s ∧
      s.worker = .updating 1 ⟨0, 0⟩ ∧ afterClose.countP (Action.isSection .drain) ≤ 1 :=
  ⟨_, runs_iff_foldlM.mpr rfl, rfl, last_pass lateClose afterClose _ (runs_iff_foldlM.mpr rfl) .drain⟩

end ImpactSockets.AsyncPipeline.Locks
