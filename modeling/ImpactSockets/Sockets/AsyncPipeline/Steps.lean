import ImpactSockets.Sockets.AsyncPipeline

/-! What each step of the pipeline can do, guards included. The invariants are
proved from these facts and do not unfold the steps again. -/
namespace ImpactSockets.AsyncPipeline

variable {Object : Type} {s t : Pipeline Object}

/-- A request is pushed for a socket that is not negative. -/
theorem pushAdd_eq_some {socket : Int} {object : Object} :
    pushAdd socket object s = some t ↔ 0 ≤ socket ∧
      { s with workPending := s.workPending ++ [(socket, object)], notifying := s.notifying + 1 } = t := by
  unfold pushAdd
  split_ifs with h
  · simp only [false_iff, not_and]
    omega
  · simp only [Option.some.injEq, Int.not_lt.mp h, true_and]

theorem pushRemove_eq_some {socket : Int} :
    pushRemove socket s = some t ↔ 0 ≤ socket ∧
      { s with workRemoved := s.workRemoved ++ [socket], notifying := s.notifying + 1 } = t := by
  unfold pushRemove
  split_ifs with h
  · simp only [false_iff, not_and]
    omega
  · simp only [Option.some.injEq, Int.not_lt.mp h, true_and]

theorem notifyPending_eq_some :
    notifyPending s = some t ↔ s.notifying ≠ 0 ∧
      { s with threadPending := s.threadPending + 1, notifying := s.notifying - 1 } = t := by
  unfold notifyPending
  split_ifs with h <;> simp [h]

/-- The worker wakes up to a pass or to its end. -/
theorem wake_eq_some :
    wake s = some t ↔ s.worker = .waiting ∧ waitPredicate s = true ∧
      { s with worker := if s.threadClosing then .finished else .woken } = t := by
  unfold wake
  by_cases h : s.worker = .waiting ∧ waitPredicate s = true
  · rw [if_pos h]
    simp only [Option.some.injEq, h.1, h.2, true_and]
  · rw [if_neg h]
    simp only [reduceCtorEq, false_iff]
    rintro ⟨hWorker, hPredicate, _⟩
    exact h ⟨hWorker, hPredicate⟩

/-- A drain either moves both queues into the worker's containers or stops at
an erase through the end iterator. -/
theorem drain_eq_some :
    drain s = some t ↔ s.worker = .woken ∧
      ((removePendingFromQueue s.workRemoved (copyPendingToQueue s.workPending s.work) = none ∧
          { s with worker := .faulted } = t) ∨
        ∃ work, removePendingFromQueue s.workRemoved (copyPendingToQueue s.workPending s.work) =
            some work ∧
          { s with
            work := work
            workPending := []
            workRemoved := []
            worker := .polling (s.workPending.length + s.workRemoved.length) } = t) := by
  unfold drain
  split_ifs with h
  · cases hWork : removePendingFromQueue s.workRemoved (copyPendingToQueue s.workPending s.work) with
    | none => simp [h]
    | some work => simp [h]
  · simp [h]

/-- A pass polls the handles that it has. -/
theorem poll_eq_some {revents : PollHandle → Int} :
    poll revents s = some t ↔ ∃ satisfied, s.worker = .polling satisfied ∧
      { s with
        work := { s.work with
          handles := s.work.handles.map fun handle => { handle with returnEvents := revents handle } }
        worker := .updating satisfied ⟨0, 0⟩ } = t := by
  unfold poll
  cases hWorker : s.worker <;> simp

/-- A callback either rewrites or erases the handle under the cursor or stops
at a call through the end iterator. -/
theorem callback_eq_some {answer : Answer} :
    callback answer s = some t ↔ ∃ satisfied cursor key,
      s.worker = .updating satisfied cursor ∧ s.work.handles[cursor.i]? = some key ∧
      ((updateHandle answer s.work cursor key = none ∧ { s with worker := .faulted } = t) ∨
        ∃ work next, updateHandle answer s.work cursor key = some (work, next) ∧
          { s with work := work, worker := .updating satisfied next } = t) := by
  unfold callback
  cases hWorker : s.worker with
  | updating satisfied cursor =>
      cases hKey : s.work.handles[cursor.i]? with
      | none => simp [hKey]
      | some key =>
          cases hUpdate : updateHandle answer s.work cursor key with
          | none => simp [hKey, hUpdate]
          | some result =>
              obtain ⟨work, next⟩ := result
              simp [hKey, hUpdate]
  | _ => simp

/-- The loop over the handles ends behind the last one. -/
theorem endUpdate_eq_some :
    endUpdate s = some t ↔ ∃ satisfied cursor, s.worker = .updating satisfied cursor ∧
      s.work.handles.length ≤ cursor.i ∧
      { s with worker := .storing satisfied (cursor.ignored ≠ s.work.handles.length) } = t := by
  unfold endUpdate
  cases hWorker : s.worker with
  | updating satisfied cursor => simp
  | _ => simp

/-- A pass ends with the flag for more work. -/
theorem store_eq_some :
    store s = some t ↔ ∃ satisfied hasWork, s.worker = .storing satisfied hasWork ∧
      { s with
        threadHasWork := hasWork
        threadPending := s.threadPending - satisfied
        worker := .waiting } = t := by
  unfold store
  cases hWorker : s.worker with
  | storing satisfied hasWork =>
      constructor
      · intro h
        exact ⟨satisfied, hasWork, rfl, Option.some.inj h⟩
      · rintro ⟨_, _, hEq, h⟩
        cases hEq
        exact congrArg some h
  | _ => simp

end ImpactSockets.AsyncPipeline
