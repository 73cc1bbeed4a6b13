import ImpactSockets.Sockets.AsyncPipeline.Locks

/-! What each step of the pipeline with its locks can do, guards included. -/
namespace ImpactSockets.AsyncPipeline.Locks

variable {ι Object : Type} [DecidableEq ι]

/-- One case for each way in which an action can end. -/
inductive Steps (s : Threads ι Object) : Action ι Object → Threads ι Object → Prop where
  | request (p : ι) (request : Request Object) (hClient : s.client p = .outside) (hAccepted : request.Accepted)
      (hFree : s.workMtx = none) :
      Steps s (.request p request) { s.move p (.requesting request) with workMtx := some (.client p) }
  | push (p : ι) (request : Request Object) (hClient : s.client p = .requesting request) :
      Steps s (.push p) (push request (s.move p .requested))
  | release (p : ι) (hClient : s.client p = .requested) :
      Steps s (.release p) { s.move p .pushed with workMtx := none }
  | enterCount (p : ι) (hClient : s.client p = .pushed) (hFree : s.threadMtx = none) :
      Steps s (.enterCount p) { s.move p .counting with threadMtx := some (.client p) }
  | count (p : ι) (hClient : s.client p = .counting) :
      Steps s (.count p) { s.move p .counted with threadPending := s.threadPending + 1 }
  | enterMark (p : ι) (hClient : s.client p = .outside) (hFree : s.threadMtx = none) :
      Steps s (.enterMark p) { s.move p .marking with threadMtx := some (.client p) }
  | mark (p : ι) (hClient : s.client p = .marking) :
      Steps s (.mark p) { s.move p .marked with threadHasWork := true }
  | leave (p : ι) (hClient : s.client p = .counted ∨ s.client p = .marked) :
      Steps s (.leave p) { s.move p .signalling with threadMtx := none }
  | signal (p : ι) (hClient : s.client p = .signalling) :
      Steps s (.signal p) (notifyCv (s.move p .outside))
  | enter (hWorker : s.worker = .entering ∨ s.worker = .woken) (hFree : s.threadMtx = none) :
      Steps s .enter { s with worker := .testing, threadMtx := some .worker }
  | testTrue (hWorker : s.worker = .testing) (hReady : waitPredicate s = true) :
      Steps s .test { s with worker := .holding }
  | testFalse (hWorker : s.worker = .testing) (hReady : waitPredicate s = false) :
      Steps s .test { s with worker := .blocking }
  | sleep (hWorker : s.worker = .blocking) : Steps s .sleep { s with worker := .asleep, threadMtx := none }
  | spurious (hWorker : s.worker = .asleep) : Steps s .spurious { s with worker := .woken }
  | finish (hWorker : s.worker = .holding) (hClosing : s.threadClosing = true) :
      Steps s .proceed { s with worker := .finished, threadMtx := none }
  | proceed (hWorker : s.worker = .holding) (hClosing : s.threadClosing = false) :
      Steps s .proceed { s with worker := .starting, threadMtx := none }
  | enterDrain (hWorker : s.worker = .starting) (hFree : s.workMtx = none) :
      Steps s .enterDrain { s with worker := .draining, workMtx := some .worker }
  | drain (work : Work Object) (hWorker : s.worker = .draining)
      (hWork : removePendingFromQueue s.workRemoved (copyPendingToQueue s.workPending s.work) = some work) :
      Steps s .drain { s with
        work := work
        workPending := []
        workRemoved := []
        worker := .drained (s.workPending.length + s.workRemoved.length) }
  | drainFault (hWorker : s.worker = .draining)
      (hWork : removePendingFromQueue s.workRemoved (copyPendingToQueue s.workPending s.work) = none) :
      Steps s .drain { s with worker := .faulted }
  | leaveDrain (satisfied : Int) (hWorker : s.worker = .drained satisfied) :
      Steps s .leaveDrain { s with worker := .polling satisfied, workMtx := none }
  | poll (revents : PollHandle → Int) (satisfied : Int) (hWorker : s.worker = .polling satisfied) :
      Steps s (.poll revents) { s with
        work := { s.work with handles := s.work.handles.map fun handle =>
          { handle with returnEvents := revents handle } }
        worker := .updating satisfied ⟨0, 0⟩ }
  | callback (answer : Answer) (satisfied : Int) (cursor next : Cursor) (key : PollHandle) (work : Work Object)
      (hWorker : s.worker = .updating satisfied cursor) (hKey : s.work.handles[cursor.i]? = some key)
      (hWork : updateHandle answer s.work cursor key = some (work, next)) :
      Steps s (.callback answer) { s with work := work, worker := .updating satisfied next }
  | callbackFault (answer : Answer) (satisfied : Int) (cursor : Cursor) (key : PollHandle)
      (hWorker : s.worker = .updating satisfied cursor) (hKey : s.work.handles[cursor.i]? = some key)
      (hWork : updateHandle answer s.work cursor key = none) :
      Steps s (.callback answer) { s with worker := .faulted }
  | endUpdate (satisfied : Int) (cursor : Cursor) (hWorker : s.worker = .updating satisfied cursor)
      (hEnd : ¬cursor.i < s.work.handles.length) :
      Steps s .endUpdate { s with worker := .storing satisfied (cursor.ignored ≠ s.work.handles.length) }
  | enterStore (satisfied : Int) (hasWork : Bool) (hWorker : s.worker = .storing satisfied hasWork)
      (hFree : s.threadMtx = none) :
      Steps s .enterStore { s with worker := .writing satisfied hasWork, threadMtx := some .worker }
  | store (satisfied : Int) (hasWork : Bool) (hWorker : s.worker = .writing satisfied hasWork) :
      Steps s .store { s with
        threadHasWork := hasWork
        threadPending := s.threadPending - satisfied
        worker := .written }
  | leaveStore (hWorker : s.worker = .written) :
      Steps s .leaveStore { s with worker := .entering, threadMtx := none }
  | endLock (hEnder : s.ender = .outside) (hFree : s.threadMtx = none) :
      Steps s .endLock { s with ender := .locked, threadMtx := some .ender }
  | endSet (hEnder : s.ender = .locked) : Steps s .endSet { s with ender := .set, threadClosing := true }
  | endUnlock (hEnder : s.ender = .set) : Steps s .endUnlock { s with ender := .unlocked, threadMtx := none }
  | endNotify (hEnder : s.ender = .unlocked) : Steps s .endNotify (notifyCv { s with ender := .joining })
  | endJoin (hEnder : s.ender = .joining) (hWorker : s.worker = .finished) :
      Steps s .endJoin { s with ender := .joined }

variable {s t : Threads ι Object} {action : Action ι Object}

/-- Every case is a step of the program. -/
theorem Steps.step (h : Steps s action t) : step s action = some t := by
  cases h with
  | leave p hClient => rcases hClient with hClient | hClient <;> simp [Locks.step, hClient]
  | enter hWorker hFree => simp [Locks.step, hWorker, hFree]
  | _ => simp_all [Locks.step]

/-- There is no other. -/
theorem steps_of_step (h : step s action = some t) : Steps s action t := by
  cases action with
  | request p request =>
      simp only [step] at h
      split at h
      · next hClient =>
          obtain ⟨⟨hAccepted, hFree⟩, rfl⟩ := by simpa using h
          exact .request p request hClient hAccepted hFree
      · cases h
  | push p =>
      simp only [step] at h
      split at h <;> cases h
      exact .push p _ ‹_›
  | release p =>
      simp only [step] at h
      split at h <;> cases h
      exact .release p ‹_›
  | enterCount p =>
      simp only [step] at h
      split at h
      · next hClient =>
          obtain ⟨hFree, rfl⟩ := by simpa using h
          exact .enterCount p hClient hFree
      · cases h
  | count p =>
      simp only [step] at h
      split at h <;> cases h
      exact .count p ‹_›
  | enterMark p =>
      simp only [step] at h
      split at h
      · next hClient =>
          obtain ⟨hFree, rfl⟩ := by simpa using h
          exact .enterMark p hClient hFree
      · cases h
  | mark p =>
      simp only [step] at h
      split at h <;> cases h
      exact .mark p ‹_›
  | leave p =>
      simp only [step] at h
      split at h <;> cases h
      · exact .leave p (.inl ‹_›)
      · exact .leave p (.inr ‹_›)
  | signal p =>
      simp only [step] at h
      split at h <;> cases h
      exact .signal p ‹_›
  | enter =>
      obtain ⟨⟨hWorker, hFree⟩, rfl⟩ := by simpa [step] using h
      exact .enter hWorker hFree
  | test =>
      obtain ⟨hWorker, rfl⟩ := by simpa [step] using h
      cases hReady : waitPredicate s with
      | true => exact .testTrue hWorker hReady
      | false => exact .testFalse hWorker hReady
  | sleep =>
      obtain ⟨hWorker, rfl⟩ := by simpa [step] using h
      exact .sleep hWorker
  | spurious =>
      obtain ⟨hWorker, rfl⟩ := by simpa [step] using h
      exact .spurious hWorker
  | proceed =>
      simp only [step] at h
      split_ifs at h with hWorker hClosing <;> cases h
      · exact .finish hWorker hClosing
      · exact .proceed hWorker (by simpa using hClosing)
  | enterDrain =>
      obtain ⟨⟨hWorker, hFree⟩, rfl⟩ := by simpa [step] using h
      exact .enterDrain hWorker hFree
  | drain =>
      simp only [step] at h
      split_ifs at h with hWorker
      split at h <;> cases h
      · exact .drainFault hWorker ‹_›
      · exact .drain _ hWorker ‹_›
  | leaveDrain =>
      simp only [step] at h
      split at h <;> cases h
      exact .leaveDrain _ ‹_›
  | poll revents =>
      simp only [step] at h
      split at h <;> cases h
      exact .poll revents _ ‹_›
  | callback answer =>
      simp only [step] at h
      split at h
      · next satisfied cursor hWorker =>
          split at h
          · cases h
          · next key hKey =>
              split at h <;> cases h
              · exact .callbackFault answer _ _ key hWorker hKey ‹_›
              · exact .callback answer _ _ _ key _ hWorker hKey ‹_›
      · cases h
  | endUpdate =>
      simp only [step] at h
      split at h
      · split_ifs at h with hEnd
        cases h
        exact .endUpdate _ _ ‹_› hEnd
      · cases h
  | enterStore =>
      simp only [step] at h
      split at h
      · next hWorker =>
          obtain ⟨hFree, rfl⟩ := by simpa using h
          exact .enterStore _ _ hWorker hFree
      · cases h
  | store =>
      simp only [step] at h
      split at h <;> cases h
      exact .store _ _ ‹_›
  | leaveStore =>
      obtain ⟨hWorker, rfl⟩ := by simpa [step] using h
      exact .leaveStore hWorker
  | endLock =>
      obtain ⟨⟨hEnder, hFree⟩, rfl⟩ := by simpa [step] using h
      exact .endLock hEnder hFree
  | endSet =>
      obtain ⟨hEnder, rfl⟩ := by simpa [step] using h
      exact .endSet hEnder
  | endUnlock =>
      obtain ⟨hEnder, rfl⟩ := by simpa [step] using h
      exact .endUnlock hEnder
  | endNotify =>
      obtain ⟨hEnder, rfl⟩ := by simpa [step] using h
      exact .endNotify hEnder
  | endJoin =>
      obtain ⟨⟨hEnder, hWorker⟩, rfl⟩ := by simpa [step] using h
      exact .endJoin hEnder hWorker

end ImpactSockets.AsyncPipeline.Locks
