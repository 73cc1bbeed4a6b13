import ImpactSockets.Sockets.BasicSocket.Records

/-! Who closes a descriptor: the last handle of its record, when it is
destroyed or assigned another record, and the assignments that get it wrong. -/
namespace ImpactSockets.BasicSocket

open Transition

variable {s t : Process}

/-- A close by the library is one that was asked for, or the record has lost
its last handle, which was destroyed or now refers to another record. -/
def ClosedByOwner (s : Process) (action : Action) (t : Process) (descriptor : Int) : Prop :=
  (∃ handle, action = .close handle) ∨
    ∃ handle info, s.info handle = some info ∧ s.descriptor info = descriptor ∧ t.useCount info = 0 ∧
      (action = .destroy handle ∨
        ∃ source other, (action = .copyAssign handle source ∨ action = .moveAssign handle source) ∧
          t.info handle = some other ∧ other ≠ info)

/-- A handle that is assigned to itself keeps its record, and the record its
descriptor. -/
def SelfAssignKeeps (s : Process) (action : Action) (t : Process) : Prop :=
  ∀ handle info, (action = .copyAssign handle handle ∨ action = .moveAssign handle handle) →
    s.info handle = some info →
    t.info handle = some info ∧ t.descriptor info = s.descriptor info ∧
      (s.descriptor info ∈ s.opened → s.descriptor info ∈ t.opened)

/-- What the ownership of descriptors demands of one operation. -/
structure Owned (s : Process) (action : Action) (t : Process) : Prop where
  closes : ∀ descriptor ∈ t.closes.drop s.closes.length, ClosedByOwner s action t descriptor
  selfAssign : SelfAssignKeeps s action t

/-- The assignments that do not respect it: a last handle copied to itself, a
handle moved to itself, and a moved-from handle assigned to the last handle of
a record that has a descriptor. -/
def Misassigns (s : Process) : Action → Prop
  | .copyAssign target source =>
      ∃ info, s.info target = some info ∧ s.useCount info = 1 ∧
        (source = target ∨ (s.info source = none ∧ s.descriptor info ≠ invalidSocket))
  | .moveAssign target source =>
      ∃ info, s.info target = some info ∧
        (source = target ∨
          (s.useCount info = 1 ∧ s.info source = none ∧ s.descriptor info ≠ invalidSocket))
  | _ => False

/-- A step that closes nothing treats every descriptor as its owner should. -/
theorem owned_of_no_close {action : Action} (hCloses : t.closes = s.closes)
    (hSelf : SelfAssignKeeps s action t) : Owned s action t := by
  refine ⟨fun descriptor h => ?_, hSelf⟩
  rw [hCloses, List.drop_length] at h
  cases h

/-- An assignment from another handle has no self-assignment to respect. -/
theorem not_selfAssign_of_ne {action : Action} {target source : Nat} (hNe : source ≠ target)
    (hAction : action = .copyAssign target source ∨ action = .moveAssign target source) :
    SelfAssignKeeps s action t := by
  rintro handle info hSelf
  rcases hAction with rfl | rfl
  · simp only [Action.copyAssign.injEq, reduceCtorEq, or_false] at hSelf
    exact (hNe (hSelf.2.trans hSelf.1.symm)).elim
  · simp only [Action.moveAssign.injEq, reduceCtorEq, false_or] at hSelf
    exact (hNe (hSelf.2.trans hSelf.1.symm)).elim

/-- When the target is the last handle of its record, the record is closed
before the source is looked at. It must be another handle, and when it is null
there must have been nothing to close. -/
theorem owned_last (consistent : Consistent s) {target source info : Nat}
    {assign : Nat → Process → Outcome} (takes : TakesFrom source assign) {action : Action}
    (hAction : action = .copyAssign target source ∨ action = .moveAssign target source)
    (hInfo : s.info target = some info) (hLast : s.useCount info = 1) :
    Owned s action (assignBy assign target s).1 ↔
      source ≠ target ∧ (s.info source = none → s.descriptor info = invalidSocket) := by
  rw [assignBy_last consistent hInfo hLast]
  have hBound := Process.lt_of_info hInfo
  have hCloses := released_closes (s := s) target info
  have hGone (handle : Nat) : (released target info s).info handle ≠ some info :=
    Process.useCount_eq_zero.mp (released_useCount hInfo hLast) handle
  have hTarget : (released target info s).info target = none := by
    rw [released_info, Process.setInfo_info_self hBound]
  by_cases hSelf : source = target
  · subst hSelf
    rw [takes.null _ _ hTarget]
    constructor
    · intro owned
      have hSelf : action = .copyAssign source source ∨ action = .moveAssign source source := hAction
      have hKept := (owned.selfAssign source info hSelf hInfo).1
      rw [hTarget] at hKept
      cases hKept
    · exact fun h => (h.1 rfl).elim
  · have hSource : (released target info s).info source = s.info source := by
      rw [released_info, Process.setInfo_info_of_ne (Ne.symm hSelf)]
    cases hOther : s.info source with
    | none =>
        rw [takes.null _ _ (hSource.trans hOther)]
        constructor
        · intro owned
          refine ⟨hSelf, fun _ => ?_⟩
          by_contra hDescriptor
          have hClosed := owned.closes (s.descriptor info)
          rw [hCloses, if_neg hDescriptor, List.drop_left] at hClosed
          rcases hClosed (List.mem_singleton_self _) with
            ⟨handle, hClose⟩ | ⟨handle, _, _, _, _, hDestroy | ⟨from_, other, hAssign, hNow, _⟩⟩
          · rcases hAction with rfl | rfl <;> cases hClose
          · rcases hAction with rfl | rfl <;> cases hDestroy
          · have hHandle : handle = target := by
              rcases hAction with rfl | rfl
              · simp only [Action.copyAssign.injEq, reduceCtorEq, or_false] at hAssign
                exact hAssign.1.symm
              · simp only [Action.moveAssign.injEq, reduceCtorEq, false_or] at hAssign
                exact hAssign.1.symm
            rw [hHandle, hTarget] at hNow
            cases hNow
        · rintro ⟨_, hNothing⟩
          refine owned_of_no_close ?_ (not_selfAssign_of_ne hSelf hAction)
          rw [hCloses, if_pos (hNothing rfl), List.append_nil]
    | some other =>
        refine iff_of_true ⟨fun descriptor hClosed => ?_, not_selfAssign_of_ne hSelf hAction⟩
          ⟨hSelf, by simp⟩
        have hTaken := takes.takes target (released target info s) other (hSource.trans hOther)
          (Ne.symm hSelf) (by rw [released_handles, List.length_set]; exact hBound)
        have hNe : other ≠ info := by
          rintro rfl
          exact hGone source (hSource.trans hOther)
        rw [takes.closes, hCloses, List.drop_left] at hClosed
        refine .inr ⟨target, info, hInfo, ?_, ?_, .inr ⟨source, other, hAction, hTaken, hNe⟩⟩
        · split_ifs at hClosed
          · cases hClosed
          · exact (List.mem_singleton.mp hClosed).symm
        · refine Process.useCount_eq_zero.mpr fun handle hHandle => ?_
          rcases takes.others _ _ _ _ hHandle with h | h
          · exact hGone source h
          · exact hGone handle h

/-- A target that is null or shares its record closes nothing. -/
theorem owned_shared {target source : Nat} {assign : Nat → Process → Outcome}
    (takes : TakesFrom source assign) {action : Action}
    (hAction : action = .copyAssign target source ∨ action = .moveAssign target source)
    (hShared : ∀ info, s.info target = some info → s.useCount info ≠ 1)
    (hSelf : source = target → SelfAssignKeeps s action (assign target s).1) :
    Owned s action (assignBy assign target s).1 := by
  rw [assignBy_shared hShared]
  refine owned_of_no_close (takes.closes ..) ?_
  by_cases hEq : source = target
  · exact hSelf hEq
  · exact not_selfAssign_of_ne hEq hAction

/-- A copy assignment respects ownership exactly outside the cases of `Misassigns`. -/
theorem owned_copyAssign (consistent : Consistent s) (target source : Nat) :
    Owned s (.copyAssign target source) (assignBy (copy source) target s).1 ↔
      ¬ Misassigns s (.copyAssign target source) := by
  by_cases h : ∃ info, s.info target = some info ∧ s.useCount info = 1
  · obtain ⟨info, hInfo, hLast⟩ := h
    rw [owned_last consistent (copy_takesFrom source) (.inl rfl) hInfo hLast]
    constructor
    · rintro ⟨hNe, hNothing⟩ ⟨other, hOther, _, hSelf | ⟨hNull, hDescriptor⟩⟩
      · exact hNe hSelf
      · rw [hInfo] at hOther
        cases hOther
        exact hDescriptor (hNothing hNull)
    · intro h
      refine ⟨fun hSelf => h ⟨info, hInfo, hLast, .inl hSelf⟩, fun hNull => ?_⟩
      by_contra hDescriptor
      exact h ⟨info, hInfo, hLast, .inr ⟨hNull, hDescriptor⟩⟩
  · simp only [not_exists, not_and] at h
    refine iff_of_true (owned_shared (copy_takesFrom source) (.inl rfl) h ?_) ?_
    · rintro rfl handle info hSelf hInfo
      have hHandle : handle = source := by
        simp only [Action.copyAssign.injEq, reduceCtorEq, or_false] at hSelf
        exact hSelf.1.symm
      subst hHandle
      have hCopy : (copy handle handle s).1 = s.setInfo handle (some info) := by
        rw [copy, hInfo]
      rw [hCopy, Process.setInfo_info_self (Process.lt_of_info hInfo)]
      exact ⟨rfl, rfl, id⟩
    · rintro ⟨info, hInfo, hLast, _⟩
      exact h info hInfo hLast

/-- A move assignment respects ownership exactly outside the cases of `Misassigns`, to which
every assignment of a handle to itself belongs. -/
theorem owned_moveAssign (consistent : Consistent s) (target source : Nat) :
    Owned s (.moveAssign target source) (assignBy (move source) target s).1 ↔
      ¬ Misassigns s (.moveAssign target source) := by
  by_cases h : ∃ info, s.info target = some info ∧ s.useCount info = 1
  · obtain ⟨info, hInfo, hLast⟩ := h
    rw [owned_last consistent (move_takesFrom source) (.inr rfl) hInfo hLast]
    constructor
    · rintro ⟨hNe, hNothing⟩ ⟨other, hOther, hSelf | ⟨_, hNull, hDescriptor⟩⟩
      · exact hNe hSelf
      · rw [hInfo] at hOther
        cases hOther
        exact hDescriptor (hNothing hNull)
    · intro h
      refine ⟨fun hSelf => h ⟨info, hInfo, .inl hSelf⟩, fun hNull => ?_⟩
      by_contra hDescriptor
      exact h ⟨info, hInfo, .inr ⟨hLast, hNull, hDescriptor⟩⟩
  · simp only [not_exists, not_and] at h
    by_cases hSelf : source = target ∧ ∃ info, s.info target = some info
    · obtain ⟨rfl, info, hInfo⟩ := hSelf
      refine iff_of_false (fun owned => ?_) fun hNot => hNot ⟨info, hInfo, .inl rfl⟩
      have hKept := (owned.selfAssign source info (.inr rfl) hInfo).1
      have hMove : (move source source s).1 = (s.setInfo source (some info)).setInfo source none := by
        rw [move, hInfo]
      rw [assignBy_shared h, hMove, Process.setInfo_info_self] at hKept
      · cases hKept
      · rw [Process.setInfo, List.length_set]
        exact Process.lt_of_info hInfo
    · refine iff_of_true (owned_shared (move_takesFrom source) (.inr rfl) h ?_) ?_
      · rintro rfl handle info hAction hInfo
        have hHandle : handle = source := by
          simp only [Action.moveAssign.injEq, reduceCtorEq, false_or] at hAction
          exact hAction.1.symm
        exact (hSelf ⟨rfl, info, hHandle ▸ hInfo⟩).elim
      · rintro ⟨info, hInfo, hEq | ⟨hLast, _⟩⟩
        · exact hSelf ⟨hEq, info, hInfo⟩
        · exact h info hInfo hLast

/-- A construction from another handle closes nothing. -/
theorem constructBy_closes {source : Nat} {assign : Nat → Process → Outcome}
    (takes : TakesFrom source assign) : (constructBy assign s).1.closes = s.closes := by
  have hCloses := takes.closes s.handles.length { s with handles := s.handles ++ [.live none] }
  unfold constructBy
  cases hResult : assign s.handles.length { s with handles := s.handles ++ [.live none] } with
  | mk next error =>
      rw [hResult] at hCloses
      cases error with
      | none => exact hCloses
      | some error => rfl

/-- One operation respects the ownership exactly when it does not misassign. -/
theorem owned_iff (consistent : Consistent s) {action : Action} (h : step s action = some t) :
    Owned s action t ↔ ¬ Misassigns s action := by
  obtain ⟨error, hPerform⟩ := step_eq_some h
  cases action with
  | construct =>
      cases hPerform
      exact iff_of_true (owned_of_no_close rfl (by simp [SelfAssignKeeps])) id
  | makeSocket descriptor =>
      obtain ⟨_, hResult⟩ := Option.ite_none_right_eq_some.mp hPerform
      obtain rfl := congrArg Prod.fst (Option.some.inj hResult)
      refine iff_of_true (owned_of_no_close ?_ (by simp [SelfAssignKeeps])) id
      unfold makeSocket
      split_ifs <;> rfl
  | copyConstruct source =>
      obtain ⟨_, hResult⟩ := Option.ite_none_right_eq_some.mp hPerform
      obtain rfl := congrArg Prod.fst (Option.some.inj hResult)
      have hCloses := @constructBy_closes s _ _ (copy_takesFrom source)
      exact iff_of_true (owned_of_no_close hCloses (by simp [SelfAssignKeeps])) id
  | moveConstruct source =>
      obtain ⟨_, hResult⟩ := Option.ite_none_right_eq_some.mp hPerform
      obtain rfl := congrArg Prod.fst (Option.some.inj hResult)
      have hCloses := @constructBy_closes s _ _ (move_takesFrom source)
      exact iff_of_true (owned_of_no_close hCloses (by simp [SelfAssignKeeps])) id
  | copyAssign target source =>
      obtain ⟨_, hResult⟩ := Option.ite_none_right_eq_some.mp hPerform
      obtain rfl := congrArg Prod.fst (Option.some.inj hResult)
      exact owned_copyAssign consistent target source
  | moveAssign target source =>
      obtain ⟨_, hResult⟩ := Option.ite_none_right_eq_some.mp hPerform
      obtain rfl := congrArg Prod.fst (Option.some.inj hResult)
      exact owned_moveAssign consistent target source
  | close handle =>
      exact iff_of_true ⟨fun _ _ => .inl ⟨handle, rfl⟩, by simp [SelfAssignKeeps]⟩ id
  | destroy handle =>
      obtain ⟨_, hResult⟩ := Option.ite_none_right_eq_some.mp hPerform
      obtain rfl := congrArg Prod.fst (Option.some.inj hResult)
      refine iff_of_true ⟨fun descriptor hClosed => ?_, by simp [SelfAssignKeeps]⟩ id
      unfold destroy at hClosed ⊢
      by_cases hLast : ∃ info, s.info handle = some info ∧ s.useCount info = 1
      · obtain ⟨info, hInfo, hLast⟩ := hLast
        rw [dtor_last consistent hInfo hLast] at hClosed ⊢
        dsimp only at hClosed ⊢
        rw [released_closes, List.drop_left] at hClosed
        refine .inr ⟨handle, info, hInfo, ?_, ?_, .inl rfl⟩
        · split_ifs at hClosed
          · cases hClosed
          · exact (List.mem_singleton.mp hClosed).symm
        · have hCount := released_useCount hInfo hLast
          rw [Process.useCount, released_handles] at hCount
          rw [Process.useCount, released_handles, List.set_set]
          rw [List.count_set (Process.lt_of_info hInfo)] at hCount ⊢
          simpa using hCount
      · simp only [not_exists, not_and] at hLast
        rw [dtor_shared hLast] at hClosed
        dsimp only at hClosed
        rw [List.drop_length] at hClosed
        cases hClosed

/-- An operation leaves a state in which the ownership has been respected. -/
def StepOwned (_ : List Action) (s : Process) (action : Action) : Prop :=
  ∀ t, step s action = some t → Owned s action t

def AssignsWell (_ : List Action) (s : Process) (action : Action) : Prop := ¬ Misassigns s action

/-- The exact sequences of operations that respect the ownership of
descriptors. No descriptor is closed twice in any sequence. -/
theorem ownership_iff (actions : List Action) (s : Process) (run : Runs step init actions s) :
    (Throughout step init actions ClosedAtMostOnce ∧ EachStep step init actions StepOwned) ↔
      EachStep step init actions AssignsWell := by
  constructor
  · rintro ⟨_, owned⟩ before action s hPrefix prior
    obtain ⟨t, runNext⟩ := run.passes hPrefix
    obtain ⟨middle, hMiddle, hStep⟩ := runNext.last
    cases prior.deterministic hMiddle
    exact (owned_iff (consistent_of_runs prior) hStep).mp (owned before action s hPrefix prior t hStep)
  · intro well
    refine ⟨fun before s _ prior => closedAtMostOnce_of_runs prior, ?_⟩
    intro before action s hPrefix prior t hStep
    exact (owned_iff (consistent_of_runs prior) hStep).mpr (well before action s hPrefix prior)

/-- A socket that is assigned to itself: its descriptor is closed, and the
handle is left as if it had been moved. -/
theorem copyAssign_self_not_owned :
    ∃ s t, Runs step init [.makeSocket 3] s ∧ step s (.copyAssign 0 0) = some t ∧
      s.info 0 = some 0 ∧ t.closes = [3] ∧ t.info 0 = none ∧
      ¬ (Throughout step init [.makeSocket 3, .copyAssign 0 0] ClosedAtMostOnce ∧
        EachStep step init [.makeSocket 3, .copyAssign 0 0] StepOwned) := by
  have hRun : Runs step init [.makeSocket 3] ⟨[.live (some 0)], [3], [3], []⟩ :=
    runs_iff_foldlM.mpr rfl
  refine ⟨_, ⟨[.live none], [-1], [], [3]⟩, hRun, rfl, rfl, rfl, rfl, ?_⟩
  rintro ⟨_, owned⟩
  have hSelf := (owned [.makeSocket 3] (.copyAssign 0 0) _ (List.prefix_refl _) hRun _ rfl).selfAssign
  have hKept := (hSelf 0 0 (.inl rfl) rfl).1
  cases hKept

/-- A copy, a move and a destruction, as in the tests of the sockets. -/
theorem ownership_iff_moved :
    (Throughout step init [.makeSocket 3, .copyConstruct 0, .moveConstruct 1, .destroy 0, .destroy 2]
        ClosedAtMostOnce ∧
      EachStep step init [.makeSocket 3, .copyConstruct 0, .moveConstruct 1, .destroy 0, .destroy 2]
        StepOwned) ↔
      EachStep step init [.makeSocket 3, .copyConstruct 0, .moveConstruct 1, .destroy 0, .destroy 2]
        AssignsWell :=
  ownership_iff _ ⟨[.destroyed, .live none, .destroyed], [-1], [], [3]⟩ (runs_iff_foldlM.mpr rfl)

end ImpactSockets.BasicSocket
