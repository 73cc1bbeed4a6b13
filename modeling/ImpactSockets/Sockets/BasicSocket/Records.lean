import ImpactSockets.Sockets.BasicSocket

/-! The info records and the descriptors they hold: every valid descriptor is
open and in one record only, so that none is closed twice. -/
namespace ImpactSockets.BasicSocket

open Transition

variable {s t : Process}

/-! ### Handles and their counts -/

namespace Process

/-- A handle has a record exactly if it is alive and refers to one. -/
theorem info_eq_some {handle info : Nat} :
    s.info handle = some info ↔ s.handles[handle]? = some (.live (some info)) := by
  unfold Process.info
  cases s.handles[handle]? with
  | none => simp
  | some object => cases object <;> simp

/-- Only a handle that exists has a record. -/
theorem lt_of_info {handle info : Nat} (h : s.info handle = some info) :
    handle < s.handles.length :=
  (List.getElem?_eq_some_iff.mp (info_eq_some.mp h)).1

/-- The count of a record is zero exactly if no handle refers to it. -/
theorem useCount_eq_zero {info : Nat} : s.useCount info = 0 ↔ ∀ handle, s.info handle ≠ some info := by
  rw [useCount, List.count_eq_zero]
  constructor
  · intro h handle hInfo
    exact h (List.mem_of_getElem? (info_eq_some.mp hInfo))
  · intro h hMem
    obtain ⟨handle, hGet⟩ := List.mem_iff_getElem?.mp hMem
    exact h handle (info_eq_some.mpr hGet)

/-- A record that a handle refers to has a positive count. -/
theorem useCount_pos {handle info : Nat} (h : s.info handle = some info) : 0 < s.useCount info := by
  rw [Nat.pos_iff_ne_zero]
  exact fun hZero => useCount_eq_zero.mp hZero handle h

@[simp]
theorem setInfo_descriptor (handle : Nat) (value : Option Nat) (info : Nat) :
    (s.setInfo handle value).descriptor info = s.descriptor info := rfl

@[simp]
theorem setDescriptor_info (info : Nat) (value : Int) (handle : Nat) :
    (s.setDescriptor info value).info handle = s.info handle := rfl

theorem setInfo_info_self {handle : Nat} (h : handle < s.handles.length) (value : Option Nat) :
    (s.setInfo handle value).info handle = value := by
  simp [Process.info, setInfo, List.getElem?_set_self h]

/-- Setting the record of one handle leaves the record of every other. -/
theorem setInfo_info_of_ne {handle other : Nat} (h : handle ≠ other) (value : Option Nat) :
    (s.setInfo handle value).info other = s.info other := by
  simp [Process.info, setInfo, List.getElem?_set_ne h]

/-- Only the record that is written changes its descriptor, and only if it exists. -/
theorem setDescriptor_descriptor (info other : Nat) (value : Int) :
    (s.setDescriptor info value).descriptor other =
      if info = other ∧ info < s.infos.length then value else s.descriptor other := by
  unfold Process.descriptor setDescriptor
  by_cases hEq : info = other
  · subst hEq
    by_cases hBound : info < s.infos.length
    · simp [hBound]
    · simp [hBound]
  · simp [hEq, List.getElem?_set_ne hEq]

/-- When a record has one handle, no handle is left once that one lets go. -/
theorem useCount_setInfo_none {handle info : Nat} (h : s.info handle = some info)
    (hLast : s.useCount info = 1) : (s.setInfo handle none).useCount info = 0 := by
  have hBound := lt_of_info h
  obtain ⟨_, hGet⟩ := List.getElem?_eq_some_iff.mp (info_eq_some.mp h)
  rw [useCount] at hLast
  simp [useCount, setInfo, List.count_set hBound, hGet, hLast]

end Process

/-! ### Records and open descriptors -/

/-- Every valid descriptor in a record is open, and in no other record. -/
structure Consistent (s : Process) : Prop where
  opened : ∀ info, s.descriptor info ≠ invalidSocket → s.descriptor info ∈ s.opened
  distinct : ∀ first second, s.descriptor first ≠ invalidSocket →
    s.descriptor first = s.descriptor second → first = second
  valid : invalidSocket ∉ s.opened
  nodup : s.opened.Nodup

/-- At the start there is no record and nothing is open. -/
theorem consistent_init : Consistent init :=
  ⟨fun _ h => (h rfl).elim, fun _ _ h => (h rfl).elim, List.not_mem_nil, List.nodup_nil⟩

/-- Handles do not matter to the records. -/
theorem Consistent.congr (consistent : Consistent s) (hInfos : t.infos = s.infos)
    (hOpened : t.opened = s.opened) : Consistent t := by
  obtain ⟨opened, distinct, valid, nodup⟩ := consistent
  have hDescriptor : ∀ info, t.descriptor info = s.descriptor info := fun info => by
    rw [Process.descriptor, hInfos, ← Process.descriptor]
  constructor
  · intro info
    rw [hDescriptor, hOpened]
    exact opened info
  · intro first second
    rw [hDescriptor, hDescriptor]
    exact distinct first second
  · rw [hOpened]
    exact valid
  · rw [hOpened]
    exact nodup

/-- A record with a valid descriptor exists. -/
theorem lt_of_descriptor {info : Nat} (h : s.descriptor info ≠ invalidSocket) :
    info < s.infos.length := by
  by_contra hBound
  exact h (by simp [Process.descriptor, hBound])

/-- The record gives up its descriptor and the system closes it. -/
def closed (info : Nat) (s : Process) : Process :=
  { s with
    infos := s.infos.set info invalidSocket
    opened := s.opened.erase (s.descriptor info)
    closes := s.closes ++ [s.descriptor info] }

/-- Closing a valid record closes its descriptor, which the invariant says is open, and does
not throw. -/
theorem closeInfo_valid (consistent : Consistent s) {info : Nat}
    (h : s.descriptor info ≠ invalidSocket) : closeInfo info s = (closed info s, none) := by
  simp [closeInfo, closeSocket, h, consistent.opened info h, closed, Process.setDescriptor]

/-- Closing an invalid record throws, since the system refuses the descriptor -1. -/
theorem closeInfo_invalid {info : Nat} (h : s.descriptor info = invalidSocket) :
    closeInfo info s = (s.setDescriptor info invalidSocket, some .system) := by
  simp [closeInfo, closeSocket, h]

theorem setDescriptor_of_eq {info : Nat} {value : Int} (h : s.descriptor info = value) :
    s.setDescriptor info value = s := by
  have hInfos : s.infos.set info value = s.infos := by
    refine List.ext_getElem? fun other => ?_
    rw [List.getElem?_set]
    split_ifs with hEq hBound
    · subst hEq
      rw [← h, Process.descriptor, List.getD_eq_getElem?_getD, List.getElem?_eq_getElem hBound]
      rfl
    · subst hEq
      exact (List.getElem?_eq_none (by omega)).symm
    · rfl
  rw [Process.setDescriptor, hInfos]

/-- Closing a valid record keeps the invariant: its descriptor leaves both the open ones and
the records. -/
theorem Consistent.closed (consistent : Consistent s) (info : Nat)
    (h : s.descriptor info ≠ invalidSocket) : Consistent (closed info s) := by
  have hBound := lt_of_descriptor h
  have hDescriptor (other : Nat) : (BasicSocket.closed info s).descriptor other =
      if info = other then invalidSocket else s.descriptor other := by
    have hSet := @Process.setDescriptor_descriptor s info other invalidSocket
    simp only [hBound, and_true] at hSet
    exact hSet
  constructor
  · intro other hOther
    rw [hDescriptor] at hOther ⊢
    split_ifs at hOther ⊢ with hEq
    · exact (hOther rfl).elim
    · refine (consistent.nodup.mem_erase_iff).mpr ⟨fun hSame => ?_, consistent.opened other hOther⟩
      exact hEq (consistent.distinct other info hOther hSame).symm
  · intro first second hFirst hSame
    rw [hDescriptor] at hFirst hSame
    rw [hDescriptor] at hSame
    split_ifs at hFirst hSame with hEq hEq'
    · exact (hFirst rfl).elim
    · exact (hFirst rfl).elim
    · exact (hFirst hSame).elim
    · exact consistent.distinct first second hFirst hSame
  · exact fun hMem => consistent.valid (List.mem_of_mem_erase hMem)
  · exact consistent.nodup.erase _

/-! ### Letting go of a record -/

/-- The process after the last handle of a record has let go of it. -/
def released (handle info : Nat) (s : Process) : Process :=
  (if s.descriptor info = invalidSocket then s else closed info s).setInfo handle none

/-- The last handle of a record closes it. -/
theorem dtor_last (consistent : Consistent s) {handle info : Nat} (h : s.info handle = some info)
    (hLast : s.useCount info = 1) : dtor handle s = (released handle info s, none) := by
  unfold dtor released
  simp only [h, hLast, ↓reduceIte, ne_eq, ite_not]
  split_ifs with hDescriptor
  · simp only [setDescriptor_of_eq hDescriptor]
  · simp only [closeInfo_valid consistent hDescriptor]
    rw [setDescriptor_of_eq]
    have hSet := Process.setDescriptor_descriptor (s := s) info info invalidSocket
    rw [if_pos ⟨rfl, lt_of_descriptor hDescriptor⟩] at hSet
    exact hSet

/-- A handle that is not the last one leaves the record to the others. -/
theorem dtor_shared {handle : Nat} (h : ∀ info, s.info handle = some info → s.useCount info ≠ 1) :
    dtor handle s = (s, none) := by
  unfold dtor
  cases hInfo : s.info handle with
  | none => rfl
  | some info => simp only [h info hInfo, ↓reduceIte]

/-- An assignment to the last handle of a record first closes what that record holds. -/
theorem assignBy_last (consistent : Consistent s) {target info : Nat}
    (h : s.info target = some info) (hLast : s.useCount info = 1)
    (assign : Nat → Process → Outcome) :
    assignBy assign target s = assign target (released target info s) := by
  have hCount := Process.useCount_pos h
  simp only [assignBy, h, hCount, ↓reduceIte, dtor_last consistent h hLast]

/-- An assignment to one of several handles only replaces its record. -/
theorem assignBy_shared {target : Nat}
    (h : ∀ info, s.info target = some info → s.useCount info ≠ 1)
    (assign : Nat → Process → Outcome) : assignBy assign target s = assign target s := by
  unfold assignBy
  cases hInfo : s.info target with
  | none => rfl
  | some info =>
      have hCount := Process.useCount_pos hInfo
      simp only [hCount, ↓reduceIte, dtor_shared h]

/-- Releasing a record keeps the invariant, whether or not its descriptor was valid. -/
theorem Consistent.released (consistent : Consistent s) (handle info : Nat) :
    Consistent (released handle info s) := by
  unfold BasicSocket.released
  split_ifs with h
  · exact consistent.congr rfl rfl
  · exact (consistent.closed info h).congr rfl rfl

/-- A release closes the descriptor of the record if it is a valid one, and nothing else. -/
theorem released_closes (handle info : Nat) :
    (released handle info s).closes =
      s.closes ++ if s.descriptor info = invalidSocket then [] else [s.descriptor info] := by
  unfold released
  split_ifs with h
  · exact (List.append_nil _).symm
  · rfl

theorem released_handles (handle info : Nat) :
    (released handle info s).handles = s.handles.set handle (.live none) := by
  unfold released
  split_ifs <;> rfl

/-- The handles of a released record do not show in any way but this. -/
theorem released_info (handle info other : Nat) :
    (released handle info s).info other = (s.setInfo handle none).info other := by
  simp [Process.info, released_handles, Process.setInfo]

/-- The last handle leaves a record behind that nobody refers to. -/
theorem released_useCount {handle info : Nat} (h : s.info handle = some info)
    (hLast : s.useCount info = 1) : (released handle info s).useCount info = 0 := by
  have hCount := Process.useCount_setInfo_none h hLast
  simpa [Process.useCount, released_handles, Process.setInfo] using hCount

/-! ### Every descriptor is closed at most once -/

/-- The descriptors that the system has handed out in the course of a run. -/
def handedOut (actions : List Action) : List Int :=
  actions.filterMap fun
    | .makeSocket descriptor => if descriptor = invalidSocket then none else some descriptor
    | _ => none

/-- Each descriptor handed out is either still open or has been closed. -/
def Balanced (actions : List Action) (s : Process) : Prop :=
  ∀ descriptor, s.closes.count descriptor + s.opened.count descriptor = (handedOut actions).count descriptor

/-- No descriptor is closed more often than it has been handed out. -/
def ClosedAtMostOnce (actions : List Action) (s : Process) : Prop :=
  ∀ descriptor, s.closes.count descriptor ≤ (handedOut actions).count descriptor

/-- What an operation may do to the records: nothing, let them close what they
own, or add one. -/
inductive Effect (s : Process) : Action → Process → Prop where
  | keep {action : Action} {t : Process} (hHandedOut : handedOut [action] = [])
      (hInfos : t.infos = s.infos) (hOpened : t.opened = s.opened) (hCloses : t.closes = s.closes) :
      Effect s action t
  | close {action : Action} {t : Process} (info : Nat) (hHandedOut : handedOut [action] = [])
      (h : s.descriptor info ≠ invalidSocket) (hInfos : t.infos = (closed info s).infos)
      (hOpened : t.opened = (closed info s).opened) (hCloses : t.closes = (closed info s).closes) :
      Effect s action t
  | construct : Effect s .construct (construct invalidSocket s)
  | makeSocket (descriptor : Int) (h : descriptor ≠ invalidSocket) (hFresh : descriptor ∉ s.opened) :
      Effect s (.makeSocket descriptor)
        { construct descriptor s with opened := s.opened ++ [descriptor] }

/-- What `_M_copy` and `_M_move` have in common: they leave the records alone,
do nothing when the source is null, and otherwise give its record to the target. -/
structure TakesFrom (source : Nat) (assign : Nat → Process → Outcome) : Prop where
  infos : ∀ target s, (assign target s).1.infos = s.infos
  opened : ∀ target s, (assign target s).1.opened = s.opened
  closes : ∀ target s, (assign target s).1.closes = s.closes
  null : ∀ target s, s.info source = none → (assign target s).1 = s
  takes : ∀ target s other, s.info source = some other → target ≠ source →
    target < s.handles.length → (assign target s).1.info target = some other
  others : ∀ target s handle info, (assign target s).1.info handle = some info →
    s.info source = some info ∨ s.info handle = some info

/-- After one handle's record is set, a record was there before or is the one set. -/
theorem info_of_setInfo {handle other info : Nat} {value : Option Nat}
    (h : (s.setInfo handle value).info other = some info) :
    value = some info ∨ s.info other = some info := by
  by_cases hEq : handle = other
  · subst hEq
    have hBound : handle < s.handles.length := by
      have hLive := Process.lt_of_info h
      rwa [Process.setInfo, List.length_set] at hLive
    rw [Process.setInfo_info_self hBound] at h
    exact .inl h
  · rw [Process.setInfo_info_of_ne hEq] at h
    exact .inr h

/-- The copy takes the record of its source. -/
theorem copy_takesFrom (source : Nat) : TakesFrom source (copy source) := by
  have hNull (target : Nat) (s : Process) (h : s.info source = none) : (copy source target s).1 = s := by
    rw [copy, h]
  have hTakes (target : Nat) (s : Process) (other : Nat) (h : s.info source = some other) :
      (copy source target s).1 = s.setInfo target (some other) := by
    rw [copy, h]
  refine ⟨fun target s => ?_, fun target s => ?_, fun target s => ?_, hNull,
    fun target s other h _ hBound => ?_, fun target s handle info h => ?_⟩
  · unfold copy
    cases s.info source <;> rfl
  · unfold copy
    cases s.info source <;> rfl
  · unfold copy
    cases s.info source <;> rfl
  · rw [hTakes target s other h, Process.setInfo_info_self hBound]
  · cases hSource : s.info source with
    | none => rw [hNull target s hSource] at h; exact .inr h
    | some other =>
        rw [hTakes target s other hSource] at h
        exact info_of_setInfo h

/-- The move takes the record of its source, which then has none. -/
theorem move_takesFrom (source : Nat) : TakesFrom source (move source) := by
  have hNull (target : Nat) (s : Process) (h : s.info source = none) : (move source target s).1 = s := by
    rw [move, h]
  have hTakes (target : Nat) (s : Process) (other : Nat) (h : s.info source = some other) :
      (move source target s).1 = (s.setInfo target (some other)).setInfo source none := by
    rw [move, h]
  refine ⟨fun target s => ?_, fun target s => ?_, fun target s => ?_, hNull,
    fun target s other h hNe hBound => ?_, fun target s handle info h => ?_⟩
  · unfold move
    cases s.info source <;> rfl
  · unfold move
    cases s.info source <;> rfl
  · unfold move
    cases s.info source <;> rfl
  · rw [hTakes target s other h, Process.setInfo_info_of_ne hNe.symm, Process.setInfo_info_self hBound]
  · cases hSource : s.info source with
    | none => rw [hNull target s hSource] at h; exact .inr h
    | some other =>
        rw [hTakes target s other hSource] at h
        exact info_of_setInfo ((info_of_setInfo h).resolve_left (by simp))

/-- A step that only replaces handles after `target` has let go of its record. -/
theorem Effect.of_released {action : Action} {handle info : Nat} (hHandedOut : handedOut [action] = [])
    (hInfos : t.infos = (released handle info s).infos)
    (hOpened : t.opened = (released handle info s).opened)
    (hCloses : t.closes = (released handle info s).closes) : Effect s action t := by
  unfold released at hInfos hOpened hCloses
  split_ifs at hInfos hOpened hCloses with h
  · exact Effect.keep hHandedOut hInfos hOpened hCloses
  · exact Effect.close info hHandedOut h hInfos hOpened hCloses

/-- What an assignment does to records, descriptors and the list of closes. -/
theorem assignBy_effect (consistent : Consistent s) {source : Nat}
    {assign : Nat → Process → Outcome} (takes : TakesFrom source assign) (target : Nat) {action : Action}
    (hHandedOut : handedOut [action] = []) :
    Effect s action (assignBy assign target s).1 := by
  by_cases h : ∃ info, s.info target = some info ∧ s.useCount info = 1
  · obtain ⟨info, hInfo, hLast⟩ := h
    rw [assignBy_last consistent hInfo hLast]
    exact Effect.of_released hHandedOut (takes.infos ..) (takes.opened ..) (takes.closes ..)
  · simp only [not_exists, not_and] at h
    rw [assignBy_shared h]
    exact Effect.keep hHandedOut (takes.infos ..) (takes.opened ..) (takes.closes ..)

/-- What a copy or a move construction does: it closes nothing. -/
theorem constructBy_effect {source : Nat} {assign : Nat → Process → Outcome}
    (takes : TakesFrom source assign) {action : Action} (hHandedOut : handedOut [action] = []) :
    Effect s action (constructBy assign s).1 := by
  unfold constructBy
  have hInfos := takes.infos s.handles.length { s with handles := s.handles ++ [.live none] }
  have hOpened := takes.opened s.handles.length { s with handles := s.handles ++ [.live none] }
  have hCloses := takes.closes s.handles.length { s with handles := s.handles ++ [.live none] }
  cases hResult : assign s.handles.length { s with handles := s.handles ++ [.live none] } with
  | mk next error =>
      rw [hResult] at hInfos hOpened hCloses
      cases error with
      | none => exact Effect.keep hHandedOut hInfos hOpened hCloses
      | some error => exact Effect.keep hHandedOut rfl rfl rfl

/-- The operation behind a step. -/
theorem step_eq_some {action : Action} (h : step s action = some t) :
    ∃ error, perform s action = some (t, error) := by
  obtain ⟨⟨next, error⟩, hPerform, rfl⟩ := Option.map_eq_some_iff.mp h
  exact ⟨error, hPerform⟩

/-- Every action has an effect of this kind; the actions differ in what they may close. -/
theorem effect_of_step (consistent : Consistent s) {action : Action} (h : step s action = some t) :
    Effect s action t := by
  obtain ⟨error, hPerform⟩ := step_eq_some h
  cases action with
  | construct =>
      cases hPerform
      exact Effect.construct
  | makeSocket descriptor =>
      obtain ⟨hSystem, hResult⟩ := Option.ite_none_right_eq_some.mp hPerform
      obtain rfl := congrArg Prod.fst (Option.some.inj hResult)
      by_cases hInvalid : descriptor = invalidSocket
      · subst hInvalid
        exact Effect.keep rfl rfl rfl rfl
      · rw [makeSocket, if_neg hInvalid]
        exact Effect.makeSocket descriptor hInvalid (hSystem.resolve_left hInvalid).2
  | copyConstruct source =>
      obtain ⟨_, hResult⟩ := Option.ite_none_right_eq_some.mp hPerform
      obtain rfl := congrArg Prod.fst (Option.some.inj hResult)
      exact constructBy_effect (copy_takesFrom source) rfl
  | moveConstruct source =>
      obtain ⟨_, hResult⟩ := Option.ite_none_right_eq_some.mp hPerform
      obtain rfl := congrArg Prod.fst (Option.some.inj hResult)
      exact constructBy_effect (move_takesFrom source) rfl
  | copyAssign target source =>
      obtain ⟨_, hResult⟩ := Option.ite_none_right_eq_some.mp hPerform
      obtain rfl := congrArg Prod.fst (Option.some.inj hResult)
      exact assignBy_effect consistent (copy_takesFrom source) target rfl
  | moveAssign target source =>
      obtain ⟨_, hResult⟩ := Option.ite_none_right_eq_some.mp hPerform
      obtain rfl := congrArg Prod.fst (Option.some.inj hResult)
      exact assignBy_effect consistent (move_takesFrom source) target rfl
  | close handle =>
      obtain ⟨_, hResult⟩ := Option.ite_none_right_eq_some.mp hPerform
      obtain rfl := congrArg Prod.fst (Option.some.inj hResult)
      unfold close
      cases hInfo : s.info handle with
      | none => exact Effect.keep rfl rfl rfl rfl
      | some info =>
          by_cases hDescriptor : s.descriptor info = invalidSocket
          · dsimp only
            rw [closeInfo_invalid hDescriptor, setDescriptor_of_eq hDescriptor]
            exact Effect.keep rfl rfl rfl rfl
          · dsimp only
            rw [closeInfo_valid consistent hDescriptor]
            exact Effect.close info rfl hDescriptor rfl rfl rfl
  | destroy handle =>
      obtain ⟨_, hResult⟩ := Option.ite_none_right_eq_some.mp hPerform
      obtain rfl := congrArg Prod.fst (Option.some.inj hResult)
      unfold destroy
      by_cases hLast : ∃ info, s.info handle = some info ∧ s.useCount info = 1
      · obtain ⟨info, hInfo, hLast⟩ := hLast
        rw [dtor_last consistent hInfo hLast]
        exact @Effect.of_released _ _ _ handle info rfl rfl rfl rfl
      · simp only [not_exists, not_and] at hLast
        rw [dtor_shared hLast]
        exact Effect.keep rfl rfl rfl rfl

/-- A fresh record holds no descriptor yet, or the one just opened. -/
theorem construct_descriptor (descriptor : Int) (info : Nat) :
    (construct descriptor s).descriptor info =
      if info = s.infos.length then descriptor else s.descriptor info := by
  unfold Process.descriptor construct
  by_cases hBound : info < s.infos.length
  · rw [if_neg (by omega)]
    simp [List.getElem?_append_left hBound]
  · by_cases hEq : info = s.infos.length
    · subst hEq
      simp
    · rw [if_neg hEq]
      have hOutside : (s.infos ++ [descriptor]).length ≤ info := by
        rw [List.length_append, List.length_singleton]
        omega
      simp only [List.getD_eq_getElem?_getD]
      rw [List.getElem?_eq_none hOutside, List.getElem?_eq_none (Nat.le_of_not_lt hBound)]

/-- Whatever has such an effect keeps the invariant. -/
theorem Effect.consistent {action : Action} (consistent : Consistent s) (effect : Effect s action t) :
    Consistent t := by
  cases effect with
  | keep _ hInfos hOpened _ => exact consistent.congr hInfos hOpened
  | close info _ h hInfos hOpened _ => exact (consistent.closed info h).congr hInfos hOpened
  | construct =>
      obtain ⟨opened, distinct, valid, nodup⟩ := consistent
      refine ⟨fun info h => ?_, fun first second hFirst hSame => ?_, valid, nodup⟩
      · rw [construct_descriptor] at h ⊢
        split_ifs at h ⊢ with hNew
        · exact (h rfl).elim
        · exact opened info h
      · rw [construct_descriptor] at hFirst hSame
        rw [construct_descriptor] at hSame
        split_ifs at hFirst hSame
        · exact (hFirst rfl).elim
        · exact (hFirst rfl).elim
        · exact (hFirst hSame).elim
        · exact distinct first second hFirst hSame
  | makeSocket descriptor hValid hFresh =>
      obtain ⟨opened, distinct, valid, nodup⟩ := consistent
      have hDescriptor := construct_descriptor (s := s) descriptor
      -- no older record holds the descriptor, for it would be open
      have hUnused (info : Nat) : s.descriptor info ≠ descriptor := fun hEq =>
        hFresh (hEq ▸ opened info (hEq.symm ▸ hValid))
      refine ⟨fun info h => ?_, fun first second hFirst hSame => ?_, ?_, ?_⟩
      · change (BasicSocket.construct descriptor s).descriptor info ∈ s.opened ++ [descriptor]
        change (BasicSocket.construct descriptor s).descriptor info ≠ invalidSocket at h
        rw [hDescriptor] at h ⊢
        split_ifs at h ⊢ with hNew
        · exact List.mem_append_right _ (List.mem_singleton_self _)
        · exact List.mem_append_left _ (opened info h)
      · change (BasicSocket.construct descriptor s).descriptor first ≠ invalidSocket at hFirst
        change (BasicSocket.construct descriptor s).descriptor first =
          (BasicSocket.construct descriptor s).descriptor second at hSame
        rw [hDescriptor] at hFirst
        rw [hDescriptor, hDescriptor] at hSame
        split_ifs at hFirst hSame with hNew hNew'
        · rw [hNew, hNew']
        · exact (hUnused second hSame.symm).elim
        · exact (hUnused first hSame).elim
        · exact distinct first second hFirst hSame
      · rw [List.mem_append, List.mem_singleton]
        rintro (h | h)
        · exact valid h
        · exact hValid h.symm
      · rw [List.nodup_append]
        refine ⟨nodup, List.nodup_singleton _, fun other hOther last hLast hEq => ?_⟩
        rw [List.mem_singleton.mp hLast] at hEq
        exact hFresh (hEq ▸ hOther)

/-- The descriptors handed out by a run are those of its steps. -/
theorem handedOut_concat (actions : List Action) (action : Action) :
    handedOut (actions ++ [action]) = handedOut actions ++ handedOut [action] :=
  List.filterMap_append

/-- A close moves the descriptor from the open ones to the closed ones. -/
theorem Effect.balanced {actions : List Action} {action : Action} (consistent : Consistent s)
    (balanced : Balanced actions s) (effect : Effect s action t) : Balanced (actions ++ [action]) t := by
  intro descriptor
  have hBefore := balanced descriptor
  rw [handedOut_concat, List.count_append]
  cases effect with
  | keep hHandedOut _ hOpened hCloses =>
      rw [hHandedOut, hOpened, hCloses]
      exact hBefore
  | close info hHandedOut h _ hOpened hCloses =>
      have hMem := consistent.opened info h
      rw [hHandedOut, hOpened, hCloses, BasicSocket.closed]
      by_cases hEq : descriptor = s.descriptor info
      · subst hEq
        have hPositive := List.count_pos_iff.mpr hMem
        simp only [List.count_append, List.count_singleton_self, List.count_erase_self, List.count_nil]
        omega
      · simp only [List.count_append, List.count_erase_of_ne hEq, List.count_nil]
        rw [List.count_singleton, if_neg (by simpa using Ne.symm hEq)]
        omega
  | construct => exact hBefore
  | makeSocket opened hValid _ =>
      have hLast : handedOut [.makeSocket opened] = [opened] := by simp [handedOut, hValid]
      rw [hLast]
      simp only [BasicSocket.construct, List.count_append]
      omega

/-- The records and the descriptors agree in every state of every run, with
assignments of a handle to itself included. -/
theorem consistent_of_runs {actions : List Action} (run : Runs step init actions s) : Consistent s :=
  run.invariant consistent_init fun _ _ _ consistent h => (effect_of_step consistent h).consistent consistent

/-- In every run a descriptor is closed at most as often as the system has handed it out. -/
theorem closedAtMostOnce_of_runs {actions : List Action} (run : Runs step init actions s) :
    ClosedAtMostOnce actions s := by
  have balanced : Balanced actions s := by
    refine @Runs.history _ _ step init Balanced _ _ run (fun _ => rfl) ?_
    intro actions action s t prior balanced h
    have consistent := consistent_of_runs prior
    exact (effect_of_step consistent h).balanced consistent balanced
  intro descriptor
  have h := balanced descriptor
  omega

end ImpactSockets.BasicSocket
