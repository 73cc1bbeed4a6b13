import ImpactSockets.Sockets.AsyncPipeline.Representation

/-! The poll of the worker's pass: `impact::poll` of `sockets/probe.cpp` takes the
address of the first handle, and the list may have none. -/
namespace ImpactSockets.AsyncPipeline

open Transition

variable {Object : Type}

/-! ### The call -/

/-- `impact::poll`, with what `POLL` makes of the handles. The result is the status
and what the pointer points to; a call is `none` when `(*__handles)[0]` is outside
the vector. -/
def impactPoll (system : List PollHandle → Int × List PollHandle) (handles : Option (List PollHandle)) :
    Option (Int × Option (List PollHandle)) :=
  match handles with
  | none => some (0, none)
  | some handles =>
      match handles[0]? with
      | none => none
      | some _ => some ((system handles).1, some (system handles).2)

theorem impactPoll_isSome_iff (system : List PollHandle → Int × List PollHandle) (handles : List PollHandle) :
    (impactPoll system (some handles)).isSome = true ↔ handles ≠ [] := by
  cases handles <;> simp [impactPoll]

/-- The poll of the pipeline's pass, where it stays inside the vector: `POLL` reports
events and changes nothing else. -/
theorem poll_impactPoll {revents : PollHandle → Int} {s t : Pipeline Object} (h : poll revents s = some t)
    {status : Int} {polled : List PollHandle}
    (hPoll : impactPoll
      (fun handles => (status, handles.map fun handle => { handle with returnEvents := revents handle }))
      (some s.work.handles) = some (status, some polled)) : t.work = { s.work with handles := polled } := by
  obtain ⟨satisfied, _, rfl⟩ := poll_eq_some.mp h
  cases hHandles : s.work.handles with
  | nil => simp [impactPoll, hHandles] at hPoll
  | cons handle rest =>
      simp only [impactPoll, hHandles, List.getElem?_cons_zero, Option.some.injEq, Prod.mk.injEq, true_and] at hPoll
      rw [← hPoll]

/-! ### What a drain leaves -/

/-- Copying the queue adds its sockets and drops none. -/
theorem copyPendingToQueue_isSome (pending : List (Int × Object)) (work : Work Object) (socket : Int) :
    ((copyPendingToQueue pending work).info socket).isSome = true ↔
      (work.info socket).isSome = true ∨ socket ∈ pending.map Prod.fst := by
  induction pending generalizing work with
  | nil => simp [copyPendingToQueue]
  | cons token rest ih =>
      have hToken : (copyToken work token).info = Function.update work.info token.1 (some token.2) := by
        unfold copyToken
        cases work.info token.1 <;> rfl
      rw [copyPendingToQueue, List.foldl_cons, ← copyPendingToQueue, ih, hToken, List.map_cons, List.mem_cons,
        Function.update_apply]
      by_cases hSocket : socket = token.1 <;> simp [hSocket]

theorem handles_ne_nil_iff {work : Work Object} (valid : work.Valid) :
    work.handles ≠ [] ↔ ∃ socket, (work.info socket).isSome = true := by
  simp only [valid.keys, Work.sockets]
  constructor
  · intro h
    obtain ⟨handle, hHandle⟩ := List.exists_mem_of_ne_nil _ h
    exact ⟨_, List.mem_map_of_mem hHandle⟩
  · rintro ⟨socket, hSocket⟩ hNil
    simp [hNil] at hSocket

/-- Some socket, whether it has a handle or is about to get one, is not about to be
removed. -/
def KeepsSocket (s : Pipeline Object) : Prop :=
  ∃ socket, (socket ∈ s.work.sockets ∨ socket ∈ s.workPending.map Prod.fst) ∧ socket ∉ s.workRemoved

theorem drain_ne_nil_iff {s t : Pipeline Object} (sound : Sound s) (h : drain s = some t) :
    t.work.handles ≠ [] ↔ KeepsSocket s := by
  obtain ⟨work, hWork, hValid, hInfo⟩ := sound.drained
  obtain ⟨_, ⟨hFault, _⟩ | ⟨next, hNext, rfl⟩⟩ := drain_eq_some.mp h
  · rw [hFault] at hWork
    cases hWork
  · rw [hNext] at hWork
    cases hWork
    rw [handles_ne_nil_iff hValid]
    refine exists_congr fun socket => ?_
    rw [hInfo, ← sound.valid.keys, ← copyPendingToQueue_isSome]
    by_cases hRemoved : socket ∈ s.workRemoved <;> simp [hRemoved]

/-! ### Runs -/

/-- A poll that is about to be made has a first handle to take the address of, for
whatever `POLL` would do. -/
def PollsInBounds (s : Pipeline Object) : Prop :=
  ∀ satisfied, s.worker = .polling satisfied →
    ∀ system, (impactPoll system (some s.work.handles)).isSome = true

theorem pollsInBounds_iff (s : Pipeline Object) :
    PollsInBounds s ↔ ((∃ satisfied, s.worker = .polling satisfied) → s.work.handles ≠ []) := by
  simp only [PollsInBounds, impactPoll_isSome_iff]
  constructor
  · rintro h ⟨satisfied, hWorker⟩
    exact h satisfied hWorker fun handles => (0, handles)
  · exact fun h satisfied hWorker _ => h ⟨satisfied, hWorker⟩

/-- Every pass starts with a socket that stays. -/
def DrainKeepsSocket (s : Pipeline Object) (action : Action Object) : Prop := action = .drain → KeepsSocket s

/-- Only a drain brings the worker in front of its poll, and until it polls its
containers stay as they are. -/
theorem polling_of_step {s t : Pipeline Object} {action : Action Object} (h : step s action = some t)
    (hDrain : action ≠ .drain) {satisfied : Int} (hPolling : t.worker = .polling satisfied) :
    s.worker = .polling satisfied ∧ t.work = s.work := by
  cases action with
  | pushAdd socket object => obtain ⟨_, rfl⟩ := pushAdd_eq_some.mp h; exact ⟨hPolling, rfl⟩
  | pushRemove socket => obtain ⟨_, rfl⟩ := pushRemove_eq_some.mp h; exact ⟨hPolling, rfl⟩
  | notifyPending => obtain ⟨_, rfl⟩ := notifyPending_eq_some.mp h; exact ⟨hPolling, rfl⟩
  | notify => cases h; exact ⟨hPolling, rfl⟩
  | close => cases h; exact ⟨hPolling, rfl⟩
  | wake =>
      obtain ⟨_, _, rfl⟩ := wake_eq_some.mp h
      dsimp only at hPolling
      split_ifs at hPolling
  | drain => exact (hDrain rfl).elim
  | poll revents => obtain ⟨_, _, rfl⟩ := poll_eq_some.mp h; cases hPolling
  | callback answer =>
      obtain ⟨_, _, _, _, _, ⟨_, rfl⟩ | ⟨_, _, _, rfl⟩⟩ := callback_eq_some.mp h
      · cases hPolling
      · cases hPolling
  | endUpdate => obtain ⟨_, _, _, _, rfl⟩ := endUpdate_eq_some.mp h; cases hPolling
  | store => obtain ⟨_, _, _, rfl⟩ := store_eq_some.mp h; cases hPolling

theorem pollsInBounds_step {s t : Pipeline Object} {action : Action Object} (sound : Sound s)
    (inBounds : PollsInBounds s) (keeps : DrainKeepsSocket s action) (h : step s action = some t) :
    PollsInBounds t := by
  rw [pollsInBounds_iff] at inBounds ⊢
  rintro ⟨satisfied, hPolling⟩
  by_cases hDrain : action = .drain
  · subst hDrain
    exact (drain_ne_nil_iff sound h).mpr (keeps rfl)
  · obtain ⟨hBefore, hWork⟩ := polling_of_step h hDrain hPolling
    rw [hWork]
    exact inBounds ⟨satisfied, hBefore⟩

/-- The exact runs in which no empty list is polled: those in which every pass that
is started has a socket left. -/
theorem pollsInBounds_throughout_iff (actions : List (Action Object)) (s : Pipeline Object)
    (run : Runs step init actions s) :
    Throughout step init actions (fun _ => PollsInBounds) ↔ EachStep step init actions fun _ => DrainKeepsSocket := by
  constructor
  · refine eachStep_of_throughout ?_ run
    rintro actions _ s t prior h inBounds rfl
    have sound := sound_of_runs prior
    obtain ⟨_, ⟨_, rfl⟩ | ⟨work, _, rfl⟩⟩ := drain_eq_some.mp h
    · exact ((sound.step h).running rfl).elim
    · exact (drain_ne_nil_iff sound h).mp ((pollsInBounds_iff _).mp inBounds ⟨_, rfl⟩)
  · refine throughout_of_eachStep ?_ ?_
    · rintro satisfied hWorker
      cases hWorker
    · intro actions action s t prior inBounds keeps h
      exact pollsInBounds_step (sound_of_runs prior) inBounds keeps h

/-- A `notify()` before the first object has been added. -/
def bareNotify : List (Action Unit) := [.notify, .wake, .drain]

theorem bareNotify_polls_empty :
    ∃ s, Runs step init bareNotify s ∧ s.worker = .polling 0 ∧ s.work.handles = [] ∧ ¬ PollsInBounds s := by
  refine ⟨_, runs_iff_foldlM.mpr rfl, rfl, rfl, fun inBounds => ?_⟩
  exact (pollsInBounds_iff _).mp inBounds ⟨0, rfl⟩ rfl

/-- Two additions and the removal of one of them. -/
theorem pollsInBounds_throughout_iff_removed :
    Throughout step init
        ([.pushAdd 5 (), .pushAdd 6 (), .pushRemove 5, .notifyPending, .wake, .drain] : List (Action Unit))
        (fun _ => PollsInBounds) ↔
      EachStep step init [.pushAdd 5 (), .pushAdd 6 (), .pushRemove 5, .notifyPending, .wake, .drain]
        fun _ => DrainKeepsSocket :=
  pollsInBounds_throughout_iff _ _ (runs_iff_foldlM.mpr rfl)

end ImpactSockets.AsyncPipeline
