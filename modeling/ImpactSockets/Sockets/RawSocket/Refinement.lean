import ImpactSockets.Sockets.RawSocket

/-! Raw sockets as a program of sockets: what each operation does to the handles and to their
records, by operations of `basic_socket` alone. -/
namespace ImpactSockets.RawSockets

open BasicSocket Transition

variable {m n : Program} {s t : Process}

/-! ### The handles of raw sockets -/

/-- Every raw socket has a handle of its own, and no one else has a record. -/
structure WellFormed (m : Program) : Prop where
  live : ∀ k handle, m.socket k = some handle → m.process.Live handle
  distinct : ∀ k other handle, m.socket k = some handle → m.socket other = some handle → k = other
  owner : ∀ handle info, m.process.info handle = some info → ∃ k, m.socket k = some handle

theorem socket_of_object {k : Nat} {raw : RawSocket} (h : m.object k = some raw) : m.socket k = some raw.socket := by
  rw [Program.socket, h]
  rfl

/-- The record of a raw socket is the one of its handle. -/
theorem record_of_object {k : Nat} {raw : RawSocket} (h : m.object k = some raw) :
    m.record k = m.process.info raw.socket := by
  rw [Program.record, socket_of_object h]
  rfl

theorem getElem?_of_object {k : Nat} {raw : RawSocket} (h : m.object k = some raw) : m.objects[k]? = some (some raw) :=
  Option.join_eq_some_iff.mp h

/-- Only a raw socket that exists is found. -/
theorem lt_of_object {k : Nat} {raw : RawSocket} (h : m.object k = some raw) : k < m.objects.length :=
  (List.getElem?_eq_some_iff.mp (getElem?_of_object h)).1

/-- A handle that is alive exists. -/
theorem live_lt {handle : Nat} (h : s.Live handle) : handle < s.handles.length := by
  obtain ⟨info, hLive⟩ := h
  exact (List.getElem?_eq_some_iff.mp hLive).1

/-- A new raw socket is behind the others. -/
theorem socket_concat (raw : RawSocket) (k : Nat) :
    (Program.mk s (m.objects ++ [some raw])).socket k =
      if k = m.objects.length then some raw.socket else m.socket k := by
  unfold Program.socket Program.object
  dsimp only
  rw [List.getElem?_append]
  split_ifs with hOld hNew hNew
  · omega
  · rfl
  · subst hNew
    simp
  · have hBound : m.objects.length ≤ k := by omega
    have hOutside : [some raw].length ≤ k - m.objects.length := by
      rw [List.length_singleton]
      omega
    rw [List.getElem?_eq_none hBound, List.getElem?_eq_none hOutside]

/-- Replacing one raw socket leaves the handles of the others. -/
theorem socket_set {k : Nat} {raw : RawSocket} (h : m.object k = some raw) (value : Option RawSocket) (other : Nat) :
    (Program.mk s (m.objects.set k value)).socket other =
      if other = k then value.map RawSocket.socket else m.socket other := by
  unfold Program.socket Program.object
  dsimp only
  split_ifs with hEq
  · subst hEq
    rw [List.getElem?_set_self (lt_of_object h)]
    rfl
  · rw [List.getElem?_set_ne (Ne.symm hEq)]

/-- Names aside, the raw sockets are the same. -/
theorem socket_rename {k : Nat} {raw : RawSocket} (h : m.object k = some raw) (name : String) (other : Nat) :
    (Program.mk s (m.objects.set k (some { raw with interfaceName := name }))).socket other = m.socket other := by
  rw [socket_set h]
  split_ifs with hEq
  · subst hEq
    exact (socket_of_object h).symm
  · rfl

/-! ### The operations -/

/-- The handles that were there keep their records. -/
theorem info_grown_of_lt {handles : List Handle} {infos : List Int} {handle : Nat} (h : handle < s.handles.length) :
    (grown s handles infos).info handle = s.info handle := by
  rw [Process.info, grown, List.getElem?_append_left h]
  rfl

/-- The handles behind them have the new ones. -/
theorem info_grown_of_le {handles : List Handle} {infos : List Int} {handle : Nat} (h : s.handles.length ≤ handle) :
    (grown s handles infos).info handle = newInfo handles (handle - s.handles.length) := by
  have hAdd := @grown_info_add s handles infos (handle - s.handles.length)
  rwa [Nat.add_sub_cancel' h] at hAdd

/-- Without a descriptor the constructor throws, and no raw socket is made. -/
theorem construct_refused (referenced : Referenced m.process) :
    construct invalidSocket m = ({ m with process := grown m.process [.destroyed] [invalidSocket] }, some .system) := by
  simp only [construct, openSocket_invalid, construct_eq_grown, destroy_unopened referenced]

/-- With one it makes a raw socket, by way of a temporary handle. -/
theorem construct_opened (referenced : Referenced m.process) {descriptor : Int} (h : descriptor ≠ invalidSocket) :
    construct descriptor m =
      (⟨grown (opening descriptor m.process) [.live (some (m.process.infos.length + 1)), .destroyed]
          [invalidSocket, descriptor],
        m.objects ++ [some ⟨m.process.handles.length, ""⟩]⟩, none) := by
  simp only [construct, openSocket_constructed referenced h]

/-- The destructor of a handle whose record is invalid closes nothing. -/
theorem destroy_of_invalid (consistent : Consistent s) {handle : Nat}
    (h : ∀ info, s.info handle = some info → s.descriptor info = invalidSocket) :
    BasicSocket.destroy handle s = { s with handles := s.handles.set handle .destroyed } := by
  unfold BasicSocket.destroy
  by_cases hLast : ∃ info, s.info handle = some info ∧ s.useCount info = 1
  · obtain ⟨info, hInfo, hLast⟩ := hLast
    rw [dtor_last consistent hInfo hLast, released, if_pos (h info hInfo)]
    simp [Process.setInfo]
  · simp only [not_exists, not_and] at hLast
    rw [dtor_shared hLast]

/-- The destructor closes the descriptor of the record, whoever else may have it. -/
theorem destroy_closing (consistent : Consistent s) {handle info : Nat} (hInfo : s.info handle = some info)
    (h : s.descriptor info ≠ invalidSocket) :
    BasicSocket.destroy handle (close handle s).1 =
      { closed info s with handles := s.handles.set handle .destroyed } := by
  have hClose : (close handle s).1 = closed info s := by
    rw [close, hInfo]
    dsimp only
    rw [closeInfo_valid consistent h]
  rw [hClose]
  refine destroy_of_invalid (consistent.closed info h) fun other hOther => ?_
  have hSame : s.info handle = some other := hOther
  rw [hInfo] at hSame
  obtain rfl := Option.some.inj hSame
  have hSet := @Process.setDescriptor_descriptor s info info invalidSocket
  rwa [if_pos ⟨rfl, lt_of_descriptor h⟩] at hSet

/-- After `close` the destructor of the handle closes nothing more. -/
theorem destroy_shut (consistent : Consistent s) {handle : Nat}
    (h : ∀ info, s.info handle = some info → s.descriptor info = invalidSocket) :
    BasicSocket.destroy handle (close handle s).1 = { s with handles := s.handles.set handle .destroyed } := by
  have hClose : (close handle s).1 = s := by
    unfold close
    cases hInfo : s.info handle with
    | none => rfl
    | some info =>
        dsimp only
        rw [closeInfo_invalid (h info hInfo), setDescriptor_of_eq (h info hInfo)]
  rw [hClose, destroy_of_invalid consistent h]

/-- `close` leaves the handles. -/
theorem close_handles (handle : Nat) : (close handle s).1.handles = s.handles := by
  unfold close
  cases s.info handle with
  | none => rfl
  | some info =>
      simp only [closeInfo, closeSocket]
      split_ifs <;> rfl

/-- The destructor of a raw socket ends its handle only. -/
theorem destroy_handles (consistent : Consistent s) (handle : Nat) :
    (BasicSocket.destroy handle (close handle s).1).handles = s.handles.set handle .destroyed := by
  by_cases h : ∃ info, s.info handle = some info ∧ s.descriptor info ≠ invalidSocket
  · obtain ⟨info, hInfo, hValid⟩ := h
    rw [destroy_closing consistent hInfo hValid]
  · simp only [not_exists, not_and, not_not] at h
    rw [destroy_shut consistent h]

/-- Every handle but the destroyed one keeps its record. -/
theorem info_destroyed {handle : Nat} (h : t.handles = s.handles.set handle .destroyed) (other : Nat) :
    t.info other = if other = handle then none else s.info other := by
  unfold Process.info
  rw [h]
  split_ifs with hEq
  · subst hEq
    by_cases hBound : other < s.handles.length
    · rw [List.getElem?_set_self hBound]
    · rw [List.getElem?_eq_none (by rw [List.length_set]; omega)]
  · rw [List.getElem?_set_ne (Ne.symm hEq)]

/-! ### Simulation -/

/-- What an operation does to the sockets. -/
def operations (m : Program) : Action → List BasicSocket.Action
  | .construct descriptor =>
      let handle := m.process.handles.length
      if descriptor = invalidSocket then [.construct, .makeSocket descriptor, .destroy handle]
      else [.construct, .makeSocket descriptor, .moveAssign handle (handle + 1), .destroy (handle + 1)]
  | .copyConstruct source => (m.socket source).toList.map .copyConstruct
  | .copyAssign k source =>
      match m.socket k, m.socket source with
      | some target, some source => [.copyAssign target source]
      | _, _ => []
  | .attach _ _ _ => []
  | .destroy k => (m.socket k).toList.flatMap fun handle => [.close handle, .destroy handle]

/-- A new handle is alive unless it was destroyed again. -/
theorem live_grown (i : Nat) (info : Option Nat) {handles : List Handle} (infos : List Int)
    (h : handles[i]? = some (.live info)) : (grown s handles infos).Live (s.handles.length + i) := by
  refine ⟨info, ?_⟩
  rw [grown, List.getElem?_append_right (Nat.le_add_right _ _), Nat.add_sub_cancel_left]
  exact h

/-- The constructor is a run of operations on handles. -/
theorem operations_construct (referenced : Referenced m.process) {descriptor : Int}
    (h : descriptor = invalidSocket ∨ (0 ≤ descriptor ∧ descriptor ∉ m.process.opened)) :
    Runs BasicSocket.step m.process (operations m (.construct descriptor)) (construct descriptor m).1.process := by
  have hConstruct : BasicSocket.step m.process .construct =
      some (grown m.process [.live (some m.process.infos.length)] [invalidSocket]) := rfl
  have hFirst := @live_grown m.process 0 (some m.process.infos.length) [.live (some m.process.infos.length)]
    [invalidSocket] rfl
  rw [runs_iff_foldlM]
  by_cases hInvalid : descriptor = invalidSocket
  · subst hInvalid
    have hMake : BasicSocket.step (grown m.process [.live (some m.process.infos.length)] [invalidSocket])
        (.makeSocket invalidSocket) =
        some (grown m.process [.live (some m.process.infos.length)] [invalidSocket]) := by
      simp [BasicSocket.step, BasicSocket.perform, makeSocket]
    have hDestroy : BasicSocket.step (grown m.process [.live (some m.process.infos.length)] [invalidSocket])
        (.destroy m.process.handles.length) = some (grown m.process [.destroyed] [invalidSocket]) := by
      rw [← destroy_unopened referenced]
      exact congrArg (Option.map Prod.fst) (if_pos hFirst)
    simp only [operations, if_true, List.foldlM_cons, List.foldlM_nil, hConstruct, hMake, hDestroy, Option.bind_eq_bind,
      Option.bind_some, construct_refused referenced]
    rfl
  · obtain ⟨hPositive, hFresh⟩ := h.resolve_left hInvalid
    have hMake : BasicSocket.step (grown m.process [.live (some m.process.infos.length)] [invalidSocket])
        (.makeSocket descriptor) =
        some (grown (opening descriptor m.process)
          [.live (some m.process.infos.length), .live (some (m.process.infos.length + 1))]
          [invalidSocket, descriptor]) := by
      have hResult := @makeSocket_grown m.process descriptor hInvalid (.live (some m.process.infos.length))
        invalidSocket
      have hAllowed : descriptor = invalidSocket ∨ (0 ≤ descriptor ∧
          descriptor ∉ (grown m.process [.live (some m.process.infos.length)] [invalidSocket]).opened) :=
        .inr ⟨hPositive, hFresh⟩
      rw [BasicSocket.step, BasicSocket.perform, if_pos hAllowed, hResult]
      rfl
    have hAssign : BasicSocket.step (grown (opening descriptor m.process)
          [.live (some m.process.infos.length), .live (some (m.process.infos.length + 1))] [invalidSocket, descriptor])
        (.moveAssign m.process.handles.length (m.process.handles.length + 1)) =
        some (grown (opening descriptor m.process) [.live (some (m.process.infos.length + 1)), .live none]
          [invalidSocket, descriptor]) := by
      have hTarget := @live_grown (opening descriptor m.process) 0 (some m.process.infos.length)
        [.live (some m.process.infos.length), .live (some (m.process.infos.length + 1))] [invalidSocket, descriptor] rfl
      have hSource := @live_grown (opening descriptor m.process) 1 (some (m.process.infos.length + 1))
        [.live (some m.process.infos.length), .live (some (m.process.infos.length + 1))] [invalidSocket, descriptor] rfl
      have hResult := @assignBy_grown (opening descriptor m.process) referenced descriptor
      rw [BasicSocket.step, BasicSocket.perform, if_pos ⟨hTarget, hSource⟩]
      exact congrArg (fun outcome => some (Prod.fst outcome)) hResult
    have hDestroy : BasicSocket.step (grown (opening descriptor m.process)
          [.live (some (m.process.infos.length + 1)), .live none] [invalidSocket, descriptor])
        (.destroy (m.process.handles.length + 1)) =
        some (grown (opening descriptor m.process) [.live (some (m.process.infos.length + 1)), .destroyed]
          [invalidSocket, descriptor]) := by
      have hMoved := @live_grown (opening descriptor m.process) 1 none
        [.live (some (m.process.infos.length + 1)), .live none] [invalidSocket, descriptor] rfl
      have hResult := @destroy_moved (opening descriptor m.process) (.live (some (m.process.infos.length + 1)))
        [invalidSocket, descriptor]
      rw [opening_handles] at hMoved hResult
      rw [BasicSocket.step, BasicSocket.perform, if_pos hMoved]
      exact congrArg some hResult
    simp only [operations, if_neg hInvalid, List.foldlM_cons, List.foldlM_nil, hConstruct, hMake, hAssign, hDestroy,
      Option.bind_eq_bind, Option.bind_some, construct_opened referenced hInvalid]
    rfl

/-- An operation on raw sockets is a run of operations on sockets. -/
theorem simulate_step (wellFormed : WellFormed m) (referenced : Referenced m.process) {action : Action}
    (h : step m action = some n) : Runs BasicSocket.step m.process (operations m action) n.process := by
  obtain ⟨⟨next, error⟩, hPerform, rfl⟩ := Option.map_eq_some_iff.mp h
  dsimp only
  cases action with
  | construct descriptor =>
      obtain ⟨hSystem, hResult⟩ := Option.ite_none_right_eq_some.mp hPerform
      obtain rfl := congrArg Prod.fst (Option.some.inj hResult)
      exact operations_construct referenced hSystem
  | copyConstruct source =>
      obtain ⟨raw, hRaw, hResult⟩ := Option.map_eq_some_iff.mp hPerform
      obtain rfl := congrArg Prod.fst hResult
      have hSocket := socket_of_object hRaw
      have hLive := wellFormed.live source raw.socket hSocket
      rw [runs_iff_foldlM, operations, hSocket]
      simp only [Option.toList_some, List.map_cons, List.map_nil, List.foldlM_cons, List.foldlM_nil, BasicSocket.step,
        BasicSocket.perform, if_pos hLive, copyConstruct]
      cases constructBy (copy raw.socket) m.process with
      | mk process error => cases error <;> rfl
  | copyAssign k source =>
      cases hTarget : m.object k with
      | none => simp [perform, hTarget] at hPerform
      | some target =>
          cases hSource : m.object source with
          | none => simp [perform, hTarget, hSource] at hPerform
          | some raw =>
              simp only [perform, hTarget, hSource, Option.some.injEq] at hPerform
              obtain rfl := congrArg Prod.fst hPerform
              have hLive := wellFormed.live k target.socket (socket_of_object hTarget)
              have hLive' := wellFormed.live source raw.socket (socket_of_object hSource)
              rw [runs_iff_foldlM, operations, socket_of_object hTarget, socket_of_object hSource]
              simp [BasicSocket.step, BasicSocket.perform, hLive, hLive', copyAssign]
  | attach k name found =>
      obtain ⟨raw, hRaw, hResult⟩ := Option.map_eq_some_iff.mp hPerform
      obtain rfl := congrArg Prod.fst hResult
      exact Runs.nil
  | destroy k =>
      obtain ⟨raw, hRaw, hResult⟩ := Option.map_eq_some_iff.mp hPerform
      obtain rfl := congrArg Prod.fst hResult
      have hSocket := socket_of_object hRaw
      have hLive := wellFormed.live k raw.socket hSocket
      have hLive' : (close raw.socket m.process).1.Live raw.socket := by
        rwa [Process.Live, close_handles]
      rw [runs_iff_foldlM, operations, hSocket]
      simp [BasicSocket.step, BasicSocket.perform, hLive, hLive', destroy]

/-! ### Handles and their owners -/

/-- Growing ends no handle. -/
theorem live_grown_of_live {handle : Nat} (h : s.Live handle) (handles : List Handle) (infos : List Int) :
    (grown s handles infos).Live handle := by
  obtain ⟨info, hLive⟩ := h
  refine ⟨info, ?_⟩
  rw [grown, List.getElem?_append_left (List.getElem?_eq_some_iff.mp hLive).1]
  exact hLive

theorem live_setInfo {handle : Nat} (h : s.Live handle) (target : Nat) (info : Option Nat) :
    (s.setInfo target info).Live handle := by
  obtain ⟨old, hLive⟩ := h
  by_cases hEq : target = handle
  · subst hEq
    exact ⟨info, List.getElem?_set_self (List.getElem?_eq_some_iff.mp hLive).1⟩
  · exact ⟨old, (List.getElem?_set_ne hEq).trans hLive⟩

/-- Copying ends no handle. -/
theorem live_copy {handle : Nat} (h : s.Live handle) (source target : Nat) : (copy source target s).1.Live handle := by
  unfold copy
  cases s.info source with
  | none => exact h
  | some info => exact live_setInfo h target _

/-- Releasing a record ends no handle. -/
theorem live_released {handle : Nat} (h : s.Live handle) (target info : Nat) :
    (released target info s).Live handle := by
  unfold Process.Live
  rw [released_handles]
  exact live_setInfo h target none

/-- An assignment ends no handle. -/
theorem live_assignBy (consistent : Consistent s) {handle : Nat} (h : s.Live handle) (source target : Nat) :
    (assignBy (copy source) target s).1.Live handle := by
  by_cases hLast : ∃ info, s.info target = some info ∧ s.useCount info = 1
  · obtain ⟨info, hInfo, hLast⟩ := hLast
    rw [assignBy_last consistent hInfo hLast]
    exact live_copy (live_released h target info) source target
  · simp only [not_exists, not_and] at hLast
    rw [assignBy_shared hLast]
    exact live_copy h source target

/-- An assignment leaves the records of the other handles. -/
theorem assignBy_info_of_ne (consistent : Consistent s) (source : Nat) {target handle : Nat} (hNe : handle ≠ target) :
    (assignBy (copy source) target s).1.info handle = s.info handle := by
  have hCopy (s : Process) : (copy source target s).1.info handle = s.info handle := by
    unfold copy
    cases s.info source with
    | none => rfl
    | some info => exact Process.setInfo_info_of_ne hNe.symm _
  by_cases hLast : ∃ info, s.info target = some info ∧ s.useCount info = 1
  · obtain ⟨info, hInfo, hLast⟩ := hLast
    rw [assignBy_last consistent hInfo hLast, hCopy, released_info, Process.setInfo_info_of_ne hNe.symm]
  · simp only [not_exists, not_and] at hLast
    rw [assignBy_shared hLast, hCopy]

/-- A copy of a handle with a record shares it. -/
theorem constructBy_copy {source info : Nat} (h : s.info source = some info) :
    constructBy (copy source) s = (grown s [.live (some info)] [], none) := by
  have hInfo : ({ s with handles := s.handles ++ [.live none] } : Process).info source = some info := by
    rw [Process.info_eq_some]
    exact (List.getElem?_append_left (Process.lt_of_info h)).trans (Process.info_eq_some.mp h)
  simp [constructBy, copy, hInfo, Process.setInfo, grown]

/-- A copy of a handle without a record throws. -/
theorem constructBy_copy_null {source : Nat} (h : s.Live source) (hNull : s.info source = none) :
    constructBy (copy source) s = (s, some (.message "Copying moved socket")) := by
  have hInfo : ({ s with handles := s.handles ++ [.live none] } : Process).info source = none := by
    rw [← hNull]
    unfold Process.info
    dsimp only
    rw [List.getElem?_append_left (live_lt h)]
  simp [constructBy, copy, hInfo]

/-- The copy of a raw socket shares its record and has its interface name. -/
theorem copyConstruct_some {raw : RawSocket} {info : Nat} (h : m.process.info raw.socket = some info) :
    copyConstruct raw m =
      (⟨grown m.process [.live (some info)] [],
        m.objects ++ [some ⟨m.process.handles.length, raw.interfaceName⟩]⟩, none) := by
  rw [copyConstruct, constructBy_copy h]

/-- The copy of one without a record throws, and nothing is made. -/
theorem copyConstruct_null {raw : RawSocket} (h : m.process.Live raw.socket)
    (hNull : m.process.info raw.socket = none) :
    copyConstruct raw m = (m, some (.message "Copying moved socket")) := by
  rw [copyConstruct, constructBy_copy_null h hNull]

/-- A new raw socket brings a new handle. -/
theorem WellFormed.grown (wellFormed : WellFormed m) (info : Option Nat) {behind : List Handle}
    (hBehind : ∀ handle ∈ behind, handle = .destroyed) (infos : List Int) {s : Process}
    (hHandles : s.handles = m.process.handles) (name : String) :
    WellFormed ⟨BasicSocket.grown s (.live info :: behind) infos,
      m.objects ++ [some ⟨m.process.handles.length, name⟩]⟩ := by
  have hInfo (handle : Nat) : s.info handle = m.process.info handle := by rw [Process.info, hHandles, ← Process.info]
  constructor
  · intro k handle h
    rw [socket_concat] at h
    split_ifs at h with hNew
    · obtain rfl := Option.some.inj h
      have hLive := @live_grown s 0 info (.live info :: behind) infos rfl
      rwa [hHandles] at hLive
    · obtain ⟨old, hOld⟩ := wellFormed.live k handle h
      exact live_grown_of_live ⟨old, hHandles ▸ hOld⟩ _ _
  · intro k other handle h h'
    rw [socket_concat] at h h'
    split_ifs at h h' with hNew hNew' hNew'
    · rw [hNew, hNew']
    · obtain rfl := Option.some.inj h
      exact absurd (live_lt (wellFormed.live other _ h')) (Nat.lt_irrefl _)
    · obtain rfl := Option.some.inj h'
      exact absurd (live_lt (wellFormed.live k _ h)) (Nat.lt_irrefl _)
    · exact wellFormed.distinct k other handle h h'
  · intro handle record h
    by_cases hOld : handle < s.handles.length
    · rw [info_grown_of_lt hOld, hInfo] at h
      obtain ⟨k, hSocket⟩ := wellFormed.owner handle record h
      refine ⟨k, ?_⟩
      rw [socket_concat, if_neg, hSocket]
      rintro rfl
      have hNone : m.socket m.objects.length = none := by simp [Program.socket, Program.object]
      rw [hNone] at hSocket
      cases hSocket
    · have hLe : s.handles.length ≤ handle := by omega
      dsimp only at h
      rw [info_grown_of_le hLe] at h
      refine ⟨m.objects.length, ?_⟩
      rw [socket_concat, if_pos rfl]
      cases hAt : handle - s.handles.length with
      | zero => exact congrArg some (by rw [hHandles] at hAt hLe; dsimp only; omega)
      | succ i =>
          rw [hAt, newInfo, Process.info_eq_some] at h
          have hMem := List.mem_of_getElem? (show behind[i]? = some (.live (some record)) from h)
          cases hBehind _ hMem

/-- Every operation keeps each raw socket on a handle of its own. -/
theorem WellFormed.step (wellFormed : WellFormed m) (consistent : Consistent m.process)
    (referenced : Referenced m.process) {action : Action} (h : step m action = some n) : WellFormed n := by
  obtain ⟨⟨next, error⟩, hPerform, rfl⟩ := Option.map_eq_some_iff.mp h
  dsimp only
  cases action with
  | construct descriptor =>
      obtain ⟨hSystem, hResult⟩ := Option.ite_none_right_eq_some.mp hPerform
      obtain rfl := congrArg Prod.fst (Option.some.inj hResult)
      by_cases hInvalid : descriptor = invalidSocket
      · subst hInvalid
        rw [construct_refused referenced]
        refine ⟨fun k handle h => live_grown_of_live (wellFormed.live k handle h) _ _, wellFormed.distinct, ?_⟩
        intro handle info h
        by_cases hOld : handle < m.process.handles.length
        · exact wellFormed.owner handle info ((info_grown_of_lt hOld).symm.trans h)
        · dsimp only at h
          rw [info_grown_of_le (by omega), newInfo, Process.info_eq_some] at h
          have hMem := List.mem_of_getElem? h
          simp at hMem
      · rw [construct_opened referenced hInvalid]
        exact wellFormed.grown (some (m.process.infos.length + 1)) (by simp) [invalidSocket, descriptor]
          (opening_handles descriptor) ""
  | copyConstruct source =>
      obtain ⟨raw, hRaw, hResult⟩ := Option.map_eq_some_iff.mp hPerform
      obtain rfl := congrArg Prod.fst hResult
      cases hInfo : m.process.info raw.socket with
      | none =>
          rw [copyConstruct_null (wellFormed.live source _ (socket_of_object hRaw)) hInfo]
          exact wellFormed
      | some info =>
          rw [copyConstruct_some hInfo]
          exact wellFormed.grown (some info) (by simp) [] rfl raw.interfaceName
  | copyAssign k source =>
      cases hTarget : m.object k with
      | none => simp [perform, hTarget] at hPerform
      | some target =>
          cases hSource : m.object source with
          | none => simp [perform, hTarget, hSource] at hPerform
          | some raw =>
              simp only [perform, hTarget, hSource, Option.some.injEq] at hPerform
              obtain rfl := congrArg Prod.fst hPerform
              have hSame := @socket_rename m (assignBy (copy raw.socket) target.socket m.process).1 k target hTarget
                raw.interfaceName
              refine ⟨fun x handle h => ?_, fun x y handle h h' => ?_, fun handle info h => ?_⟩
              · exact live_assignBy consistent (wellFormed.live x handle ((hSame x).symm.trans h)) _ _
              · exact wellFormed.distinct x y handle ((hSame x).symm.trans h) ((hSame y).symm.trans h')
              · by_cases hEq : handle = target.socket
                · exact ⟨k, (hSame k).trans (hEq ▸ socket_of_object hTarget)⟩
                · dsimp only [copyAssign] at h
                  rw [assignBy_info_of_ne consistent raw.socket hEq] at h
                  obtain ⟨x, hx⟩ := wellFormed.owner handle info h
                  exact ⟨x, (hSame x).trans hx⟩
  | attach k name found =>
      obtain ⟨raw, hRaw, hResult⟩ := Option.map_eq_some_iff.mp hPerform
      obtain rfl := congrArg Prod.fst hResult
      have hSame := @socket_rename m m.process k raw hRaw name
      refine ⟨fun x handle h => ?_, fun x y handle h h' => ?_, fun handle info h => ?_⟩
      · exact wellFormed.live x handle ((hSame x).symm.trans h)
      · exact wellFormed.distinct x y handle ((hSame x).symm.trans h) ((hSame y).symm.trans h')
      · obtain ⟨x, hx⟩ := wellFormed.owner handle info h
        exact ⟨x, (hSame x).trans hx⟩
  | destroy k =>
      obtain ⟨raw, hRaw, hResult⟩ := Option.map_eq_some_iff.mp hPerform
      obtain rfl := congrArg Prod.fst hResult
      have hHandles := destroy_handles consistent raw.socket
      have hSocket := socket_of_object hRaw
      have hLeft {x handle : Nat} (h : (destroy k raw m).socket x = some handle) :
          m.socket x = some handle ∧ handle ≠ raw.socket := by
        rw [destroy, socket_set hRaw] at h
        split_ifs at h with hEq
        · cases h
        · refine ⟨h, ?_⟩
          rintro rfl
          exact hEq (wellFormed.distinct x k raw.socket h hSocket)
      refine ⟨fun x handle h => ?_, fun x y handle h h' => ?_, fun handle info h => ?_⟩
      · obtain ⟨hOld, hNe⟩ := hLeft h
        obtain ⟨info, hLive⟩ := wellFormed.live x handle hOld
        refine ⟨info, ?_⟩
        rw [destroy, hHandles, List.getElem?_set_ne hNe.symm, hLive]
      · exact wellFormed.distinct x y handle (hLeft h).1 (hLeft h').1
      · rw [destroy, info_destroyed hHandles] at h
        split_ifs at h with hEq
        obtain ⟨x, hx⟩ := wellFormed.owner handle info h
        refine ⟨x, ?_⟩
        rw [destroy, socket_set hRaw, if_neg, hx]
        rintro rfl
        rw [hSocket] at hx
        exact hEq (Option.some.inj hx).symm

/-! ### Runs -/

/-- Raw sockets are a program of sockets: what they do to handles, records and descriptors is
a run of the operations of `basic_socket`. -/
theorem simulate {actions : List Action} (run : Runs step init actions m) :
    WellFormed m ∧ Runs BasicSocket.step BasicSocket.init (matched step operations init actions) m.process := by
  have hInit : WellFormed init := by
    refine ⟨fun k handle h => ?_, fun k other handle h => ?_, fun handle info h => ?_⟩
    · simp [init, Program.socket, Program.object] at h
    · simp [init, Program.socket, Program.object] at h
    · simp [init, BasicSocket.init, Process.info] at h
  have hStep (actions : List Action) (action : Action) (m n : Program) (s : Process) (_ : Runs step init actions m)
      (h : step m action = some n)
      (runSockets : Runs BasicSocket.step BasicSocket.init (matched step operations init actions) s)
      (hRelation : WellFormed m ∧ m.process = s) :
      ∃ t, Runs BasicSocket.step s (operations m action) t ∧ WellFormed n ∧ n.process = t := by
    obtain ⟨wellFormed, rfl⟩ := hRelation
    have referenced := referenced_of_runs runSockets
    exact ⟨n.process, simulate_step wellFormed referenced h,
      wellFormed.step (consistent_of_runs runSockets) referenced h, rfl⟩
  obtain ⟨s, runSockets, hWellFormed, rfl⟩ := run.simulate ⟨hInit, rfl⟩ hStep
  exact ⟨hWellFormed, runSockets⟩

end ImpactSockets.RawSockets
