import ImpactSockets.Sockets.BasicSocket.Records

/-! The records that handles refer to, and the handles and records that a function makes for
itself, behind those that are there when it is called. -/
namespace ImpactSockets.BasicSocket

open Transition

variable {s t : Process}

/-- Every handle refers to a record that exists. -/
def Referenced (s : Process) : Prop := ∀ handle info, s.info handle = some info → info < s.infos.length

/-! ### Steps -/

/-- No record is added, and handles take theirs from handles. -/
structure Inherits (s t : Process) : Prop where
  infos : t.infos.length = s.infos.length
  handles : ∀ handle info, t.info handle = some info → ∃ other, s.info other = some info

theorem Inherits.refl (s : Process) : Inherits s s := ⟨rfl, fun handle _ h => ⟨handle, h⟩⟩

theorem Inherits.trans {middle : Process} (first : Inherits s middle) (second : Inherits middle t) : Inherits s t where
  infos := second.infos.trans first.infos
  handles := fun handle info h => by
    obtain ⟨other, hOther⟩ := second.handles handle info h
    exact first.handles other info hOther

/-- Handles that only inherit still refer to records that exist. -/
theorem Referenced.of_inherits (referenced : Referenced s) (inherits : Inherits s t) : Referenced t := by
  intro handle info h
  obtain ⟨other, hOther⟩ := inherits.handles handle info h
  rw [inherits.infos]
  exact referenced other info hOther

theorem inherits_setDescriptor (info : Nat) (descriptor : Int) : Inherits s (s.setDescriptor info descriptor) :=
  ⟨List.length_set, fun handle _ h => ⟨handle, h⟩⟩

theorem inherits_setInfo_none (handle : Nat) : Inherits s (s.setInfo handle none) :=
  ⟨rfl, fun other _ h => ⟨other, (info_of_setInfo h).resolve_left (by simp)⟩⟩

/-- Closing a record changes its descriptor at most, so no handle gains a record. -/
theorem inherits_closeInfo (info : Nat) : Inherits s (closeInfo info s).1 := by
  have hSocket : Inherits s (closeSocket (s.descriptor info) s).1 := by
    unfold closeSocket
    split_ifs
    · exact .refl s
    · exact ⟨rfl, fun handle _ h => ⟨handle, h⟩⟩
  exact hSocket.trans (inherits_setDescriptor info invalidSocket)

theorem inherits_close (handle : Nat) : Inherits s (close handle s).1 := by
  unfold close
  cases s.info handle with
  | none => exact .refl s
  | some info => exact inherits_closeInfo info

/-- Giving up a record leaves every other handle with the record it had. -/
theorem inherits_dtor (handle : Nat) : Inherits s (dtor handle s).1 := by
  unfold dtor
  cases s.info handle with
  | none => exact .refl s
  | some info =>
      dsimp only
      split_ifs with hLast hDescriptor
      · have hClose := @inherits_closeInfo s info
        cases hResult : closeInfo info s with
        | mk next error =>
            rw [hResult] at hClose
            cases error with
            | some error => exact hClose
            | none =>
                exact (hClose.trans (inherits_setDescriptor info invalidSocket)).trans (inherits_setInfo_none handle)
      · exact (inherits_setDescriptor info invalidSocket).trans (inherits_setInfo_none handle)
      · exact .refl s

/-- An assignment hands the record of its source on and makes no record of its own. -/
theorem TakesFrom.inherits {source : Nat} {assign : Nat → Process → Outcome} (takes : TakesFrom source assign)
    (target : Nat) (s : Process) : Inherits s (assign target s).1 where
  infos := by rw [takes.infos]
  handles := fun handle info h => by
    rcases takes.others target s handle info h with hSource | hHandle
    · exact ⟨source, hSource⟩
    · exact ⟨handle, hHandle⟩

/-- An assignment through the destructor's clean-up inherits as the plain one does. -/
theorem inherits_assignBy {source : Nat} {assign : Nat → Process → Outcome} (takes : TakesFrom source assign)
    (target : Nat) : Inherits s (assignBy assign target s).1 := by
  unfold assignBy
  cases s.info target with
  | none => exact takes.inherits target s
  | some info =>
      dsimp only
      split_ifs
      · have hRelease := @inherits_dtor s target
        cases hResult : dtor target s with
        | mk next error =>
            rw [hResult] at hRelease
            cases error with
            | some error => exact hRelease
            | none => exact hRelease.trans (takes.inherits target next)
      · exact takes.inherits target s

/-- A copy or a move construction hands the record of its source on. -/
theorem inherits_constructBy {source : Nat} {assign : Nat → Process → Outcome} (takes : TakesFrom source assign) :
    Inherits s (constructBy assign s).1 := by
  have hNew : Inherits s { s with handles := s.handles ++ [.live none] } := by
    refine ⟨rfl, fun handle info h => ⟨handle, ?_⟩⟩
    rw [Process.info_eq_some] at h ⊢
    dsimp only at h
    rw [List.getElem?_append] at h
    split_ifs at h
    · exact h
    · simpa using List.mem_of_getElem? h
  have hAssign := hNew.trans (takes.inherits s.handles.length _)
  unfold constructBy
  cases hResult : assign s.handles.length { s with handles := s.handles ++ [.live none] } with
  | mk next error =>
      rw [hResult] at hAssign
      cases error with
      | some error => exact .refl s
      | none => exact hAssign

theorem inherits_destroy (handle : Nat) : Inherits s (destroy handle s) := by
  refine (inherits_dtor handle).trans ⟨rfl, fun other info h => ⟨other, ?_⟩⟩
  rw [Process.info_eq_some] at h ⊢
  rw [destroy, List.getElem?_set] at h
  split_ifs at h
  · simp at h
  · exact h

/-- The constructor adds the record that its handle refers to. -/
theorem referenced_construct (referenced : Referenced s) (descriptor : Int) : Referenced (construct descriptor s) := by
  intro handle info h
  rw [Process.info_eq_some] at h
  simp only [construct, List.getElem?_append] at h
  rw [construct, List.length_append, List.length_singleton]
  split_ifs at h
  · exact Nat.lt_succ_of_lt (referenced handle info (Process.info_eq_some.mpr h))
  · obtain rfl : info = s.infos.length := by simpa using List.mem_of_getElem? h
    exact Nat.lt_succ_self _

/-- Every action keeps each handle on a record that exists. -/
theorem Referenced.step (referenced : Referenced s) {action : Action} (h : step s action = some t) : Referenced t := by
  obtain ⟨error, hPerform⟩ := step_eq_some h
  cases action with
  | construct =>
      cases hPerform
      exact referenced_construct referenced invalidSocket
  | makeSocket descriptor =>
      obtain ⟨_, hResult⟩ := Option.ite_none_right_eq_some.mp hPerform
      obtain rfl := congrArg Prod.fst (Option.some.inj hResult)
      unfold makeSocket
      split_ifs
      · exact referenced
      · exact referenced_construct referenced descriptor
  | copyConstruct source =>
      obtain ⟨_, hResult⟩ := Option.ite_none_right_eq_some.mp hPerform
      obtain rfl := congrArg Prod.fst (Option.some.inj hResult)
      exact referenced.of_inherits (inherits_constructBy (copy_takesFrom source))
  | moveConstruct source =>
      obtain ⟨_, hResult⟩ := Option.ite_none_right_eq_some.mp hPerform
      obtain rfl := congrArg Prod.fst (Option.some.inj hResult)
      exact referenced.of_inherits (inherits_constructBy (move_takesFrom source))
  | copyAssign target source =>
      obtain ⟨_, hResult⟩ := Option.ite_none_right_eq_some.mp hPerform
      obtain rfl := congrArg Prod.fst (Option.some.inj hResult)
      exact referenced.of_inherits (inherits_assignBy (copy_takesFrom source) target)
  | moveAssign target source =>
      obtain ⟨_, hResult⟩ := Option.ite_none_right_eq_some.mp hPerform
      obtain rfl := congrArg Prod.fst (Option.some.inj hResult)
      exact referenced.of_inherits (inherits_assignBy (move_takesFrom source) target)
  | close handle =>
      obtain ⟨_, hResult⟩ := Option.ite_none_right_eq_some.mp hPerform
      obtain rfl := congrArg Prod.fst (Option.some.inj hResult)
      exact referenced.of_inherits (inherits_close handle)
  | destroy handle =>
      obtain ⟨_, hResult⟩ := Option.ite_none_right_eq_some.mp hPerform
      obtain rfl := congrArg Prod.fst (Option.some.inj hResult)
      exact referenced.of_inherits (inherits_destroy handle)

/-- In every reachable state the handles refer to records that exist. -/
theorem referenced_of_runs {actions : List Action} (run : Runs step init actions s) : Referenced s := by
  refine run.invariant (fun handle info h => ?_) fun _ _ _ referenced h => referenced.step h
  simp [init, Process.info] at h

/-! ### Temporary objects -/

/-- The process with handles and records that have been made since. -/
def grown (s : Process) (handles : List Handle) (infos : List Int) : Process :=
  { s with handles := s.handles ++ handles, infos := s.infos ++ infos }

variable {handles : List Handle} {infos : List Int}

/-- The record of a handle that has been made since. -/
def newInfo (handles : List Handle) (i : Nat) : Option Nat := (⟨handles, [], [], []⟩ : Process).info i

/-- The record of the first of the new handles. -/
@[simp]
theorem newInfo_zero (info : Option Nat) : newInfo (.live info :: handles) 0 = info := rfl

/-- The record of the second of the new handles. -/
@[simp]
theorem newInfo_one (first : Handle) (info : Option Nat) : newInfo (first :: .live info :: handles) 1 = info := rfl

/-- Behind the handles of `s` stand the new ones, in their order. -/
theorem grown_info_add (i : Nat) : (grown s handles infos).info (s.handles.length + i) = newInfo handles i := by
  rw [newInfo, Process.info, grown, List.getElem?_append_right (Nat.le_add_right _ _), Nat.add_sub_cancel_left]
  rfl

@[simp]
theorem grown_info : (grown s handles infos).info s.handles.length = newInfo handles 0 := grown_info_add 0

@[simp]
theorem grown_info_one : (grown s handles infos).info (s.handles.length + 1) = newInfo handles 1 := grown_info_add 1

/-- Setting the record of a new handle leaves the handles of `s` alone. -/
theorem grown_setInfo_add (i : Nat) (info : Option Nat) :
    (grown s handles infos).setInfo (s.handles.length + i) info = grown s (handles.set i (.live info)) infos := by
  simp [Process.setInfo, grown, List.set_append_right]

@[simp]
theorem grown_setInfo (info : Option Nat) :
    (grown s handles infos).setInfo s.handles.length info = grown s (handles.set 0 (.live info)) infos :=
  grown_setInfo_add 0 info

@[simp]
theorem grown_setInfo_one (info : Option Nat) :
    (grown s handles infos).setInfo (s.handles.length + 1) info = grown s (handles.set 1 (.live info)) infos :=
  grown_setInfo_add 1 info

/-- Behind the records of `s` stand the new descriptors, in their order. -/
theorem grown_descriptor_add (j : Nat) :
    (grown s handles infos).descriptor (s.infos.length + j) = infos.getD j invalidSocket := by
  rw [Process.descriptor, grown, List.getD_eq_getElem?_getD, List.getElem?_append_right (Nat.le_add_right _ _),
    Nat.add_sub_cancel_left, ← List.getD_eq_getElem?_getD]

@[simp]
theorem grown_descriptor : (grown s handles infos).descriptor s.infos.length = infos.getD 0 invalidSocket :=
  grown_descriptor_add 0

@[simp]
theorem grown_descriptor_one : (grown s handles infos).descriptor (s.infos.length + 1) = infos.getD 1 invalidSocket :=
  grown_descriptor_add 1

/-- Setting a new descriptor leaves the records of `s` alone. -/
theorem grown_setDescriptor_add (j : Nat) (descriptor : Int) :
    (grown s handles infos).setDescriptor (s.infos.length + j) descriptor =
      grown s handles (infos.set j descriptor) := by
  simp [Process.setDescriptor, grown, List.set_append_right]

@[simp]
theorem grown_setDescriptor (descriptor : Int) :
    (grown s handles infos).setDescriptor s.infos.length descriptor = grown s handles (infos.set 0 descriptor) :=
  grown_setDescriptor_add 0 descriptor

@[simp]
theorem grown_setDescriptor_one (descriptor : Int) :
    (grown s handles infos).setDescriptor (s.infos.length + 1) descriptor = grown s handles (infos.set 1 descriptor) :=
  grown_setDescriptor_add 1 descriptor

/-- A new record is counted among the new handles only: no handle of `s` can refer to it. -/
theorem grown_useCount (referenced : Referenced s) (j : Nat) :
    (grown s handles infos).useCount (s.infos.length + j) = handles.count (.live (some (s.infos.length + j))) := by
  have hOld : s.useCount (s.infos.length + j) = 0 := by
    refine Process.useCount_eq_zero.mpr fun handle hInfo => ?_
    have hBound := referenced handle _ hInfo
    omega
  rw [Process.useCount] at hOld ⊢
  rw [grown, List.count_append, hOld, Nat.zero_add]

/-- The constructor is the growth by one handle that refers to the one new record. -/
theorem construct_eq_grown (descriptor : Int) :
    construct descriptor s = grown s [.live (some s.infos.length)] [descriptor] := rfl

/-- The process with the descriptor open. -/
def opening (descriptor : Int) (s : Process) : Process := { s with opened := s.opened ++ [descriptor] }

@[simp]
theorem opening_handles (descriptor : Int) : (opening descriptor s).handles = s.handles := rfl

@[simp]
theorem opening_infos (descriptor : Int) : (opening descriptor s).infos = s.infos := rfl

@[simp]
theorem opening_closes (descriptor : Int) : (opening descriptor s).closes = s.closes := rfl

/-- The descriptor the system has just given is open. -/
theorem mem_opening (descriptor : Int) : descriptor ∈ (opening descriptor s).opened :=
  List.mem_append_right _ (List.mem_singleton_self _)

/-- Closing the descriptor just given leaves open what was open before. -/
theorem erase_opening {descriptor : Int} (h : descriptor ∉ s.opened) :
    (opening descriptor s).opened.erase descriptor = s.opened := by
  simp [opening, List.erase_append_right _ h]

/-- `make_socket` with a valid descriptor adds a second handle with a record of its own. -/
theorem makeSocket_grown {descriptor : Int} (h : descriptor ≠ invalidSocket) (first : Handle) (record : Int) :
    makeSocket descriptor (grown s [first] [record]) =
      (grown (opening descriptor s) [first, .live (some (s.infos.length + 1))] [record, descriptor], none) := by
  simp [makeSocket, h, construct, grown, opening]

/-- The socket is moved into the first handle, whose own record has no descriptor. -/
theorem assignBy_grown (referenced : Referenced s) (descriptor : Int) :
    assignBy (move (s.handles.length + 1)) s.handles.length
        (grown s [.live (some s.infos.length), .live (some (s.infos.length + 1))] [invalidSocket, descriptor]) =
      (grown s [.live (some (s.infos.length + 1)), .live none] [invalidSocket, descriptor], none) := by
  have hCount (handles : List Handle) (infos : List Int) := @grown_useCount s handles infos referenced 0
  simp only [Nat.add_zero] at hCount
  simp [assignBy, dtor, move, hCount]

/-- What it was moved from has nothing to close. -/
theorem destroy_moved (first : Handle) (infos : List Int) :
    destroy (s.handles.length + 1) (grown s [first, .live none] infos) = grown s [first, .destroyed] infos := by
  simp only [destroy, dtor, grown_info_one, newInfo_one]
  simp [grown]

/-- `handle = make_socket(...)`. The socket is moved into the handle, and what it was moved
from is destroyed. -/
def openSocket (descriptor : Int) (handle : Nat) (s : Process) : Outcome :=
  match makeSocket descriptor s with
  | (s, some error) => (s, some error)
  | (s, none) =>
      let result := s.handles.length - 1
      let assigned := assignBy (move result) handle s
      (destroy result assigned.1, assigned.2)

/-- Without a descriptor `openSocket` throws, and the socket it was given is as it was. -/
theorem openSocket_invalid (handle : Nat) : openSocket invalidSocket handle s = (s, some .system) := by
  simp [openSocket, makeSocket]

/-- Opening a socket into a new handle: the temporary of `make_socket` is gone afterwards, and
the handle holds its record. -/
theorem openSocket_constructed (referenced : Referenced s) {descriptor : Int} (h : descriptor ≠ invalidSocket) :
    openSocket descriptor s.handles.length (construct invalidSocket s) =
      (grown (opening descriptor s) [.live (some (s.infos.length + 1)), .destroyed] [invalidSocket, descriptor],
        none) := by
  have hMake := @makeSocket_grown s descriptor h (.live (some s.infos.length)) invalidSocket
  have hLength : (grown (opening descriptor s) [.live (some s.infos.length), .live (some (s.infos.length + 1))]
      [invalidSocket, descriptor]).handles.length - 1 = s.handles.length + 1 := by simp [grown]
  have hAssign := @assignBy_grown (opening descriptor s) referenced descriptor
  have hMoved := @destroy_moved (opening descriptor s) (.live (some (s.infos.length + 1))) [invalidSocket, descriptor]
  rw [opening_handles, opening_infos] at hAssign
  rw [opening_handles] at hMoved
  simp only [openSocket, construct_eq_grown, hMake, hLength, hAssign, hMoved]

/-- The descriptor of a record that has been added is closed. -/
theorem closeInfo_grown {descriptor : Int} (hValid : descriptor ≠ invalidSocket) (hOpen : descriptor ∈ s.opened)
    (handles : List Handle) :
    closeInfo (s.infos.length + 1) (grown s handles [invalidSocket, descriptor]) =
      (grown { s with opened := s.opened.erase descriptor, closes := s.closes ++ [descriptor] } handles
        [invalidSocket, invalidSocket], none) := by
  have hDescriptor : (grown s handles [invalidSocket, descriptor]).descriptor (s.infos.length + 1) = descriptor :=
    grown_descriptor_one
  have hMem : descriptor ∈ (grown s handles [invalidSocket, descriptor]).opened := hOpen
  have hRecord := @grown_setDescriptor_one
    { s with opened := s.opened.erase descriptor, closes := s.closes ++ [descriptor] } handles
    [invalidSocket, descriptor] invalidSocket
  rw [closeInfo, hDescriptor, closeSocket, if_neg hValid]
  refine Prod.ext hRecord ?_
  exact if_pos (decide_eq_true hMem)

/-- `close` of the new handle hands its descriptor back once and marks the record invalid. -/
theorem close_grown {descriptor : Int} (hValid : descriptor ≠ invalidSocket) (hOpen : descriptor ∈ s.opened)
    (second : Handle) :
    close s.handles.length (grown s [.live (some (s.infos.length + 1)), second] [invalidSocket, descriptor]) =
      (grown { s with opened := s.opened.erase descriptor, closes := s.closes ++ [descriptor] }
        [.live (some (s.infos.length + 1)), second] [invalidSocket, invalidSocket], none) := by
  rw [close, grown_info]
  exact closeInfo_grown hValid hOpen _

/-- A destructor of the last handle of a record that has no descriptor. -/
theorem destroy_last {handle info : Nat} (hInfo : s.info handle = some info) (hCount : s.useCount info = 1)
    (hClosed : s.descriptor info = invalidSocket) :
    destroy handle s =
      { (s.setDescriptor info invalidSocket).setInfo handle none with
        handles := ((s.setDescriptor info invalidSocket).setInfo handle none).handles.set handle .destroyed } := by
  rw [destroy, dtor, hInfo]
  dsimp only
  rw [if_pos hCount, if_neg (not_not.mpr hClosed)]

/-- The last handle of a record without a descriptor has nothing to close either. -/
theorem destroy_closed (referenced : Referenced s) :
    destroy s.handles.length (grown s [.live (some (s.infos.length + 1)), .destroyed] [invalidSocket, invalidSocket]) =
      grown s [.destroyed, .destroyed] [invalidSocket, invalidSocket] := by
  have hCount : (grown s [.live (some (s.infos.length + 1)), .destroyed] [invalidSocket, invalidSocket]).useCount
      (s.infos.length + 1) = 1 := by
    rw [grown_useCount referenced 1]
    simp
  rw [destroy_last grown_info hCount grown_descriptor_one, grown_setDescriptor_one, grown_setInfo]
  simp [grown]

/-- The last handle of an open socket closes it. -/
theorem destroy_opened (referenced : Referenced s) {descriptor : Int} (hValid : descriptor ≠ invalidSocket)
    (hOpen : descriptor ∈ s.opened) :
    destroy s.handles.length (grown s [.live (some (s.infos.length + 1)), .destroyed] [invalidSocket, descriptor]) =
      grown { s with opened := s.opened.erase descriptor, closes := s.closes ++ [descriptor] }
        [.destroyed, .destroyed] [invalidSocket, invalidSocket] := by
  have hCount : (grown s [.live (some (s.infos.length + 1)), .destroyed] [invalidSocket, descriptor]).useCount
      (s.infos.length + 1) = 1 := by
    rw [grown_useCount referenced 1]
    simp
  have hDescriptor : (grown s [.live (some (s.infos.length + 1)), .destroyed]
      [invalidSocket, descriptor]).descriptor (s.infos.length + 1) ≠ invalidSocket := by
    rw [grown_descriptor_one]
    exact hValid
  have hClose := @closeInfo_grown s descriptor hValid hOpen [.live (some (s.infos.length + 1)), .destroyed]
  have hRecord := @grown_setDescriptor_one
    { s with opened := s.opened.erase descriptor, closes := s.closes ++ [descriptor] }
    [.live (some (s.infos.length + 1)), .destroyed] [invalidSocket, invalidSocket] invalidSocket
  have hHandle := @grown_setInfo { s with opened := s.opened.erase descriptor, closes := s.closes ++ [descriptor] }
    [.live (some (s.infos.length + 1)), .destroyed] [invalidSocket, invalidSocket] none
  rw [destroy, dtor, grown_info]
  dsimp only [newInfo_zero]
  rw [if_pos hCount, if_pos hDescriptor, hClose]
  dsimp only
  rw [hRecord, List.set_cons_succ, List.set_cons_zero, hHandle]
  simp [grown]

/-- The destructor of a handle that was never opened closes nothing. -/
theorem destroy_unopened (referenced : Referenced s) :
    destroy s.handles.length (grown s [.live (some s.infos.length)] [invalidSocket]) =
      grown s [.destroyed] [invalidSocket] := by
  have hCount : (grown s [.live (some s.infos.length)] [invalidSocket]).useCount s.infos.length = 1 := by
    have hLast := @grown_useCount s [.live (some s.infos.length)] [invalidSocket] referenced 0
    rw [Nat.add_zero] at hLast
    rw [hLast]
    simp
  rw [destroy_last grown_info hCount grown_descriptor, grown_setDescriptor, grown_setInfo]
  simp [grown]

end ImpactSockets.BasicSocket
