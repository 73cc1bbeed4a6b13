import ImpactSockets.Sockets.AsyncPipeline.Representation

/-! The flag that `notify` sets and that every pass overwrites with what the
callbacks made of it. -/
namespace ImpactSockets.AsyncPipeline

open Transition

variable {Object : Type}

/-- An action of the kind has been made and no pass has started since. -/
def SinceWake (kind : Action Object → Prop) (actions : List (Action Object)) : Prop :=
  ∃ before action after, actions = before ++ action :: after ∧ kind action ∧ .wake ∉ after

/-- Some `notify()` has completed and no pass has started since. -/
def NotifiedSinceWake : List (Action Object) → Prop := SinceWake (· = .notify)

/-- A callback that keeps its handle in the poll set. -/
def Action.Continues : Action Object → Prop
  | .callback answer => answer.option = .continue_
  | _ => False

/-- Some callback of the current pass has answered CONTINUE. -/
def ContinuedSinceWake : List (Action Object) → Prop := SinceWake Action.Continues

theorem not_sinceWake_nil (kind : Action Object → Prop) : ¬ SinceWake kind [] := by
  rintro ⟨before, action, after, hEq, _⟩
  simp at hEq

theorem sinceWake_concat (kind : Action Object → Prop)
    (actions : List (Action Object)) (action : Action Object) :
    SinceWake kind (actions ++ [action]) ↔ kind action ∨ (action ≠ .wake ∧ SinceWake kind actions) := by
  constructor
  · rintro ⟨before, found, after, hEq, hFound, hWake⟩
    cases after using List.reverseRecOn with
    | nil =>
        obtain ⟨_, hLast⟩ := List.append_inj' hEq rfl
        cases hLast
        exact .inl hFound
    | append_singleton after last =>
        rw [← List.cons_append, ← List.append_assoc] at hEq
        obtain ⟨hActions, hLast⟩ := List.append_inj' hEq rfl
        cases hLast
        simp only [List.mem_append, List.mem_singleton, not_or] at hWake
        exact .inr ⟨fun h => hWake.2 h.symm, before, found, after, hActions, hFound, hWake.1⟩
  · rintro (hAction | ⟨hWake, before, found, after, rfl, hFound, hAfter⟩)
    · exact ⟨actions, action, [], rfl, hAction, List.not_mem_nil⟩
    · refine ⟨before, found, after ++ [action], by simp, hFound, ?_⟩
      simp only [List.mem_append, List.mem_singleton, not_or]
      exact ⟨hAfter, fun h => hWake h.symm⟩

theorem notifiedSinceWake_concat (actions : List (Action Object)) (action : Action Object) :
    NotifiedSinceWake (actions ++ [action]) ↔
      action = .notify ∨ (action ≠ .wake ∧ NotifiedSinceWake actions) :=
  sinceWake_concat _ actions action

theorem continuedSinceWake_concat (actions : List (Action Object)) (action : Action Object) :
    ContinuedSinceWake (actions ++ [action]) ↔
      action.Continues ∨ (action ≠ .wake ∧ ContinuedSinceWake actions) :=
  sinceWake_concat _ actions action

/-! ### The count of ignored handles -/

/-- What one callback does to the counters of the loop. -/
theorem updateHandle_cursor {answer : Answer} {work next : Work Object} {cursor cursor' : Cursor}
    {key : PollHandle} (hBound : cursor.i < work.handles.length)
    (h : updateHandle answer work cursor key = some (next, cursor')) :
    (answer.option = .quit ∧ cursor' = cursor ∧
        next.handles.length + 1 = work.handles.length) ∨
      (answer.option = .ignore ∧ cursor' = ⟨cursor.i + 1, cursor.ignored + 1⟩ ∧
        next.handles.length = work.handles.length) ∨
      (answer.option = .continue_ ∧ cursor' = ⟨cursor.i + 1, cursor.ignored⟩ ∧
        next.handles.length = work.handles.length) := by
  have hSocket : 0 ≤ key.absSocket := Int.natCast_nonneg _
  unfold updateHandle at h
  cases hInfo : work.info key.absSocket with
  | none => simp [hInfo] at h
  | some object =>
      cases hOption : answer.option with
      | quit =>
          simp only [hInfo, hOption, Option.some.injEq, Prod.mk.injEq] at h
          obtain ⟨rfl, rfl⟩ := h
          refine .inl ⟨rfl, rfl, ?_⟩
          simp only [List.length_eraseIdx, hBound, ↓reduceIte]
          omega
      | ignore =>
          simp only [hInfo, hOption, true_and, ↓reduceIte, Option.some.injEq, Prod.mk.injEq] at h
          obtain ⟨rfl, rfl⟩ := h
          refine .inr (.inl ⟨rfl, ?_, List.length_set⟩)
          -- the socket 0 is counted as the special case, every other one by its sign
          by_cases hZero : key.absSocket = 0
          · simp [hZero]
          · have hNeg : -key.absSocket < 0 := by omega
            rw [if_pos hNeg, if_neg (by omega)]
      | continue_ =>
          simp only [hInfo, hOption, reduceCtorEq, false_and, ↓reduceIte, Option.some.injEq,
            Prod.mk.injEq] at h
          obtain ⟨rfl, rfl⟩ := h
          refine .inr (.inr ⟨rfl, ?_, List.length_set⟩)
          rw [if_neg (by omega)]

/-- The pass counts the ignored handles among those it has visited and kept, so
that it falls behind exactly when a callback has answered CONTINUE. -/
def Tallied (actions : List (Action Object)) (s : Pipeline Object) : Prop :=
  match s.worker with
  | .woken => ¬ ContinuedSinceWake actions
  | .polling _ => ¬ ContinuedSinceWake actions
  | .updating _ cursor =>
      cursor.i ≤ s.work.handles.length ∧ cursor.ignored ≤ cursor.i ∧
        (cursor.ignored ≠ cursor.i ↔ ContinuedSinceWake actions)
  | .storing _ hasWork => hasWork = true ↔ ContinuedSinceWake actions
  | _ => True

/-- A step outside the worker's pass leaves the tally as it is. -/
theorem Tallied.keep {actions : List (Action Object)} {s t : Pipeline Object}
    (tallied : Tallied actions s) {action : Action Object} (hWorker : t.worker = s.worker)
    (hWork : t.work = s.work) (hWake : action ≠ .wake) (hContinues : ¬ action.Continues) :
    Tallied (actions ++ [action]) t := by
  have h : ContinuedSinceWake (actions ++ [action]) ↔ ContinuedSinceWake actions := by
    simp [continuedSinceWake_concat, hWake, hContinues]
  unfold Tallied at *
  rw [hWorker, hWork]
  cases hCase : s.worker <;> simp_all only [not_false_eq_true, and_self]

theorem Tallied.step {actions : List (Action Object)} {s t : Pipeline Object}
    (tallied : Tallied actions s) {action : Action Object} (h : step s action = some t) :
    Tallied (actions ++ [action]) t := by
  cases action with
  | pushAdd socket object =>
      obtain ⟨_, rfl⟩ := pushAdd_eq_some.mp h
      exact tallied.keep rfl rfl (by simp) id
  | pushRemove socket =>
      obtain ⟨_, rfl⟩ := pushRemove_eq_some.mp h
      exact tallied.keep rfl rfl (by simp) id
  | notifyPending =>
      obtain ⟨_, rfl⟩ := notifyPending_eq_some.mp h
      exact tallied.keep rfl rfl (by simp) id
  | notify =>
      cases h
      exact tallied.keep rfl rfl (by simp) id
  | close =>
      cases h
      exact tallied.keep rfl rfl (by simp) id
  | wake =>
      obtain ⟨_, _, rfl⟩ := wake_eq_some.mp h
      unfold Tallied
      cases s.threadClosing with
      | true => trivial
      | false => simp [continuedSinceWake_concat, Action.Continues]
  | drain =>
      obtain ⟨hWorker, ⟨_, rfl⟩ | ⟨work, _, rfl⟩⟩ := drain_eq_some.mp h
      · trivial
      · unfold Tallied at *
        rw [hWorker] at tallied
        simpa [continuedSinceWake_concat, Action.Continues] using tallied
  | poll revents =>
      obtain ⟨satisfied, hWorker, rfl⟩ := poll_eq_some.mp h
      unfold Tallied at *
      rw [hWorker] at tallied
      simpa [continuedSinceWake_concat, Action.Continues] using tallied
  | callback answer =>
      obtain ⟨satisfied, cursor, key, hWorker, hKey, ⟨_, rfl⟩ | ⟨work, next, hNext, rfl⟩⟩ :=
        callback_eq_some.mp h
      · trivial
      · have hBound := (List.getElem?_eq_some_iff.mp hKey).1
        unfold Tallied at *
        rw [hWorker] at tallied
        obtain ⟨_, hIgnored, hContinued⟩ := tallied
        dsimp only
        rw [continuedSinceWake_concat, Action.Continues, ← hContinued]
        rcases updateHandle_cursor hBound hNext with
          ⟨hOption, rfl, hLength⟩ | ⟨hOption, rfl, hLength⟩ | ⟨hOption, rfl, hLength⟩
        · simp only [hOption, reduceCtorEq, ne_eq, not_false_eq_true, true_and, false_or, and_true]
          omega
        · simp only [hOption, reduceCtorEq, ne_eq, not_false_eq_true, true_and, false_or]
          omega
        · simp only [hOption, true_or, iff_true]
          omega
  | endUpdate =>
      obtain ⟨satisfied, cursor, hWorker, hEnd, rfl⟩ := endUpdate_eq_some.mp h
      unfold Tallied at *
      rw [hWorker] at tallied
      obtain ⟨hBound, _, hContinued⟩ := tallied
      have hLength : s.work.handles.length = cursor.i := Nat.le_antisymm hEnd hBound
      simpa [continuedSinceWake_concat, Action.Continues, hLength] using hContinued
  | store =>
      obtain ⟨_, _, _, rfl⟩ := store_eq_some.mp h
      trivial

theorem tallied_of_runs {actions : List (Action Object)} {s : Pipeline Object}
    (run : Runs step init actions s) : Tallied actions s :=
  run.history trivial fun _ _ _ _ _ tallied h => tallied.step h

/-! ### Notifications -/

/-- The outstanding `notify()` will be served: the wait predicate holds. -/
def NotifyKept (actions : List (Action Object)) (s : Pipeline Object) : Prop :=
  NotifiedSinceWake actions → s.threadClosing = true ∨ s.threadHasWork = true

/-- A pass in which a `notify()` came does not end after callbacks that all
answered IGNORE or QUIT, unless the pipeline closes. -/
def StoreKeepsNotify (actions : List (Action Object)) (s : Pipeline Object)
    (action : Action Object) : Prop :=
  action = .store → NotifiedSinceWake actions →
    s.threadClosing = true ∨ ContinuedSinceWake actions

/-- Only `notify` and the worker's store write the flag. -/
theorem threadHasWork_of_step {s t : Pipeline Object} {action : Action Object}
    (h : step s action = some t) (hNotify : action ≠ .notify) (hStore : action ≠ .store) :
    t.threadHasWork = s.threadHasWork ∧ (s.threadClosing = true → t.threadClosing = true) := by
  cases action with
  | pushAdd socket object => obtain ⟨_, rfl⟩ := pushAdd_eq_some.mp h; exact ⟨rfl, id⟩
  | pushRemove socket => obtain ⟨_, rfl⟩ := pushRemove_eq_some.mp h; exact ⟨rfl, id⟩
  | notifyPending => obtain ⟨_, rfl⟩ := notifyPending_eq_some.mp h; exact ⟨rfl, id⟩
  | notify => exact (hNotify rfl).elim
  | close => cases h; exact ⟨rfl, fun _ => rfl⟩
  | wake => obtain ⟨_, _, rfl⟩ := wake_eq_some.mp h; exact ⟨rfl, id⟩
  | drain =>
      obtain ⟨_, ⟨_, rfl⟩ | ⟨_, _, rfl⟩⟩ := drain_eq_some.mp h
      · exact ⟨rfl, id⟩
      · exact ⟨rfl, id⟩
  | poll revents => obtain ⟨_, _, rfl⟩ := poll_eq_some.mp h; exact ⟨rfl, id⟩
  | callback answer =>
      obtain ⟨_, _, _, _, _, ⟨_, rfl⟩ | ⟨_, _, _, rfl⟩⟩ := callback_eq_some.mp h
      · exact ⟨rfl, id⟩
      · exact ⟨rfl, id⟩
  | endUpdate => obtain ⟨_, _, _, _, rfl⟩ := endUpdate_eq_some.mp h; exact ⟨rfl, id⟩
  | store => exact (hStore rfl).elim

/-- What the store writes is whether a callback answered CONTINUE. -/
theorem threadHasWork_of_store {actions : List (Action Object)} {s t : Pipeline Object}
    (tallied : Tallied actions s) (h : step s .store = some t) :
    (t.threadHasWork = true ↔ ContinuedSinceWake actions) ∧ t.threadClosing = s.threadClosing := by
  obtain ⟨satisfied, hasWork, hWorker, rfl⟩ := store_eq_some.mp h
  rw [Tallied, hWorker] at tallied
  exact ⟨tallied, rfl⟩

/-- One step keeps an outstanding `notify()` unless a store drops it. -/
theorem notifyKept_step {actions : List (Action Object)} {action : Action Object}
    {s t : Pipeline Object} (tallied : Tallied actions s) (kept : NotifyKept actions s)
    (keeps : StoreKeepsNotify actions s action) (h : step s action = some t) :
    NotifyKept (actions ++ [action]) t := by
  intro hNotified
  by_cases hNotify : action = .notify
  · subst hNotify
    cases h
    exact .inr rfl
  · obtain ⟨_, hBefore⟩ := ((notifiedSinceWake_concat actions action).mp hNotified).resolve_left hNotify
    by_cases hStore : action = .store
    · subst hStore
      obtain ⟨hFlag, hClosing⟩ := threadHasWork_of_store tallied h
      rw [hFlag, hClosing]
      exact keeps rfl hBefore
    · obtain ⟨hFlag, hClosing⟩ := threadHasWork_of_step h hNotify hStore
      rw [hFlag]
      exact (kept hBefore).imp_left hClosing

/-- The exact runs in which no `notify()` is lost: those in which no pass ends
with nothing to do when a `notify()` came while it was running. -/
theorem notifyKept_throughout_iff (actions : List (Action Object)) (s : Pipeline Object)
    (run : Runs step init actions s) :
    Throughout step init actions NotifyKept ↔ EachStep step init actions StoreKeepsNotify := by
  constructor
  · refine eachStep_of_throughout ?_ run
    intro actions action s t prior h kept hStore hNotified
    subst hStore
    obtain ⟨hFlag, hClosing⟩ := threadHasWork_of_store (tallied_of_runs prior) h
    rw [← hFlag, ← hClosing]
    exact kept ((notifiedSinceWake_concat _ _).mpr (.inr ⟨by simp, hNotified⟩))
  · refine throughout_of_eachStep ?_ ?_
    · exact fun hNotified => (not_sinceWake_nil _ hNotified).elim
    · intro actions action s t prior kept keeps h
      exact notifyKept_step (tallied_of_runs prior) kept keeps h

/-- A pass over one socket during which a client calls `notify()` and whose
only callback answers IGNORE. -/
def lostNotify : List (Action Unit) :=
  [.pushAdd 5 (), .notifyPending, .wake, .drain, .poll fun _ => 0, .notify,
    .callback ⟨.ignore, pollIn⟩, .endUpdate, .store]

/-- The worker goes back to its wait with the flag down. -/
theorem lostNotify_not_kept :
    ∃ s, Runs step init lostNotify s ∧ NotifiedSinceWake lostNotify ∧
      s.threadClosing = false ∧ s.threadHasWork = false ∧ ¬ NotifyKept lostNotify s := by
  have hNotified : NotifiedSinceWake lostNotify :=
    ⟨[.pushAdd 5 (), .notifyPending, .wake, .drain, .poll fun _ => 0], .notify,
      [.callback ⟨.ignore, pollIn⟩, .endUpdate, .store], rfl, rfl, by simp⟩
  refine ⟨_, runs_iff_foldlM.mpr rfl, hNotified, rfl, rfl, fun kept => ?_⟩
  rcases kept hNotified with h | h <;> cases h

/-- The same pass with a callback that answers CONTINUE. -/
theorem notifyKept_throughout_iff_continued :
    Throughout step init
        ([.pushAdd 5 (), .notifyPending, .wake, .drain, .poll fun _ => 0, .notify,
          .callback ⟨.continue_, pollIn⟩, .endUpdate, .store] : List (Action Unit)) NotifyKept ↔
      EachStep step init
        [.pushAdd 5 (), .notifyPending, .wake, .drain, .poll fun _ => 0, .notify,
          .callback ⟨.continue_, pollIn⟩, .endUpdate, .store] StoreKeepsNotify :=
  notifyKept_throughout_iff _ _ (runs_iff_foldlM.mpr rfl)

end ImpactSockets.AsyncPipeline
