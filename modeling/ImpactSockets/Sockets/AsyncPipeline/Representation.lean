import ImpactSockets.Sockets.AsyncPipeline.Steps
import Mathlib.Data.List.InsertIdx
import Mathlib.Data.List.Nodup

/-! The two containers of the worker stay in step: the absolute sockets of the
handles are distinct and are the keys of the info map. -/
namespace ImpactSockets.AsyncPipeline

open Transition

variable {Object : Type}

/-- The absolute values of the sockets in `m_work_handles_`. -/
def Work.sockets (work : Work Object) : List Int := work.handles.map PollHandle.absSocket

/-- The representation invariant of `m_work_handles_` and `m_work_info_`. -/
structure Work.Valid (work : Work Object) : Prop where
  distinct : work.sockets.Nodup
  keys : ∀ socket, (work.info socket).isSome = true ↔ socket ∈ work.sockets

namespace Work.Valid

variable {work next : Work Object}

theorem empty : (⟨[], fun _ => none⟩ : Work Object).Valid :=
  ⟨List.nodup_nil, fun _ => by simp [Work.sockets]⟩

/-- Handles may be rewritten in place as long as their sockets keep their
absolute values, and objects may be exchanged. -/
theorem keep (valid : work.Valid) (hSockets : next.sockets = work.sockets)
    (hInfo : ∀ socket, (next.info socket).isSome = (work.info socket).isSome) : next.Valid :=
  ⟨hSockets ▸ valid.distinct, fun socket => by rw [hInfo, hSockets, valid.keys]⟩

/-- A new socket is inserted into both tables. -/
theorem insert (valid : work.Valid) {socket : Int} {object : Object}
    (hFresh : work.info socket = none) (hSockets : next.sockets = work.sockets ++ [socket])
    (hInfo : next.info = Function.update work.info socket (some object)) : next.Valid := by
  have hNew : socket ∉ work.sockets := by
    rw [← valid.keys, hFresh]
    simp
  constructor
  · rw [hSockets, List.nodup_append]
    refine ⟨valid.distinct, List.nodup_singleton _, fun a ha b hb => ?_⟩
    rintro rfl
    exact hNew (List.mem_singleton.mp hb ▸ ha)
  · intro other
    rw [hInfo, hSockets, Function.update_apply, List.mem_append, List.mem_singleton, ← valid.keys]
    split_ifs with h <;> simp [h]

/-- A socket is erased from both tables. -/
theorem erase (valid : work.Valid) {socket : Int}
    (hSockets : next.sockets = work.sockets.erase socket)
    (hInfo : next.info = Function.update work.info socket none) : next.Valid := by
  constructor
  · rw [hSockets]
    exact valid.distinct.erase socket
  · intro other
    rw [hInfo, hSockets, Function.update_apply, valid.distinct.mem_erase_iff, ← valid.keys]
    split_ifs with h <;> simp [h]

end Work.Valid

theorem absSocket_of_nonneg {socket events returned : Int} (h : 0 ≤ socket) :
    (⟨socket, events, returned⟩ : PollHandle).absSocket = socket := by
  simp only [PollHandle.absSocket]
  omega

theorem copyToken_valid {work : Work Object} (valid : work.Valid) (token : Int × Object)
    (h : 0 ≤ token.1) : (copyToken work token).Valid := by
  unfold copyToken
  cases hInfo : work.info token.1 with
  | none =>
      refine valid.insert hInfo ?_ rfl
      simp [Work.sockets, absSocket_of_nonneg h]
  | some object =>
      refine valid.keep rfl fun socket => ?_
      simp only [Function.update_apply]
      split_ifs with hSocket
      · simp [hSocket, hInfo]
      · rfl

/-- The tables stay valid while the queue is copied, whatever sockets repeat in it. -/
theorem copyPendingToQueue_valid (pending : List (Int × Object)) {work : Work Object}
    (valid : work.Valid) (h : ∀ token ∈ pending, 0 ≤ token.1) :
    (copyPendingToQueue pending work).Valid := by
  induction pending generalizing work with
  | nil => exact valid
  | cons token rest ih =>
      exact ih (copyToken_valid valid token (h token (List.mem_cons_self ..)))
        fun next hNext => h next (List.mem_cons_of_mem _ hNext)

/-- Removing a token never meets a missing entry: a handle that is found has
its info. Afterwards the token is a key no more. -/
theorem removeToken_valid {work : Work Object} (valid : work.Valid) (token : Int) :
    ∃ next, removeToken work token = some next ∧ next.Valid ∧
      next.info = Function.update work.info token none := by
  unfold removeToken
  cases hFind : work.handles.find? (fun handle => handle.absSocket == token) with
  | none =>
      have hMissing : work.info token = none := by
        rw [← Option.not_isSome_iff_eq_none, valid.keys]
        intro hMem
        obtain ⟨handle, hHandle, hSocket⟩ := List.mem_map.mp hMem
        have h := List.find?_eq_none.mp hFind handle hHandle
        simp [hSocket] at h
      refine ⟨work, rfl, valid, ?_⟩
      rw [← hMissing, Function.update_eq_self]
  | some handle =>
      have hSocket : handle.absSocket = token := by simpa using List.find?_some hFind
      have hMem : token ∈ work.sockets :=
        hSocket ▸ List.mem_map_of_mem (List.mem_of_find?_eq_some hFind)
      obtain ⟨object, hInfo⟩ := Option.isSome_iff_exists.mp ((valid.keys _).mpr hMem)
      simp only [hSocket, hInfo]
      refine ⟨_, rfl, valid.erase ?_ rfl, rfl⟩
      rw [List.erase_eq_eraseP', Work.sockets, Work.sockets, List.eraseP_map]
      rfl

/-- The removals of a drain never meet a missing entry. -/
theorem removePendingFromQueue_valid (removed : List Int) {work : Work Object}
    (valid : work.Valid) :
    ∃ next, removePendingFromQueue removed work = some next ∧ next.Valid ∧
      ∀ socket, next.info socket = if socket ∈ removed then none else work.info socket := by
  induction removed generalizing work with
  | nil => exact ⟨work, rfl, valid, by simp⟩
  | cons token rest ih =>
      obtain ⟨middle, hMiddle, hValid, hInfo⟩ := removeToken_valid valid token
      obtain ⟨next, hNext, hNextValid, hNextInfo⟩ := ih hValid
      refine ⟨next, ?_, hNextValid, fun socket => ?_⟩
      · simpa [removePendingFromQueue, hMiddle] using hNext
      · rw [hNextInfo, hInfo, Function.update_apply]
        by_cases hRest : socket ∈ rest <;> by_cases hToken : socket = token <;>
          simp [hRest, hToken]

/-- One callback: the handle under the cursor has its info, and either both
containers lose its socket or neither changes its keys. -/
theorem updateHandle_valid {work : Work Object} (valid : work.Valid) (answer : Answer)
    (cursor : Cursor) {key : PollHandle} (hKey : work.handles[cursor.i]? = some key) :
    ∃ next cursor', updateHandle answer work cursor key = some (next, cursor') ∧ next.Valid ∧
      (answer.option ≠ .quit → next.info = work.info) := by
  obtain ⟨hIndex, hGet⟩ := List.getElem?_eq_some_iff.mp hKey
  have hBound : cursor.i < work.sockets.length := by simpa [Work.sockets] using hIndex
  have hSocket : work.sockets[cursor.i] = key.absSocket := by simp [Work.sockets, hGet]
  have hMem : key.absSocket ∈ work.sockets := hSocket ▸ List.getElem_mem hBound
  obtain ⟨object, hInfo⟩ := Option.isSome_iff_exists.mp ((valid.keys _).mpr hMem)
  have kept (socket events : Int) (h : (⟨socket, events, 0⟩ : PollHandle).absSocket = key.absSocket) :
      (⟨work.handles.set cursor.i ⟨socket, events, 0⟩, work.info⟩ : Work Object).Valid := by
    refine valid.keep ?_ fun _ => rfl
    have hSet := List.set_getElem_self hBound
    rw [hSocket] at hSet
    rw [Work.sockets, List.map_set, h]
    exact hSet
  unfold updateHandle
  cases hOption : answer.option with
  | quit =>
      simp only [hInfo]
      refine ⟨_, _, rfl, valid.erase ?_ rfl, by simp⟩
      rw [← hSocket, valid.distinct.erase_getElem]
      exact (List.eraseIdx_map ..).symm
  | continue_ =>
      simp only [hInfo, reduceCtorEq, false_and, ↓reduceIte]
      exact ⟨_, _, rfl, kept _ _ (by simp [PollHandle.absSocket]), fun _ => rfl⟩
  | ignore =>
      simp only [hInfo, true_and, ↓reduceIte]
      exact ⟨_, _, rfl, kept _ _ (by simp [PollHandle.absSocket]), fun _ => rfl⟩

/-- The containers agree, clients only queue sockets that are not negative,
and the worker has never gone through an end iterator. -/
structure Sound (s : Pipeline Object) : Prop where
  valid : s.work.Valid
  pending : ∀ token ∈ s.workPending, 0 ≤ token.1
  running : s.worker ≠ .faulted

theorem sound_init : Sound (init : Pipeline Object) :=
  ⟨Work.Valid.empty, by simp [init], by simp [init]⟩

/-- A drain of any two queues of client requests. -/
theorem Sound.drained {s : Pipeline Object} (sound : Sound s) :
    ∃ work, removePendingFromQueue s.workRemoved (copyPendingToQueue s.workPending s.work) =
        some work ∧ work.Valid ∧
      ∀ socket, work.info socket =
        if socket ∈ s.workRemoved then none
        else (copyPendingToQueue s.workPending s.work).info socket :=
  removePendingFromQueue_valid s.workRemoved
    (copyPendingToQueue_valid s.workPending sound.valid sound.pending)

/-- Every step keeps the tables valid. -/
theorem Sound.step {s t : Pipeline Object} (sound : Sound s) {action : Action Object}
    (h : step s action = some t) : Sound t := by
  obtain ⟨valid, pending, running⟩ := sound
  cases action with
  | pushAdd socket object =>
      obtain ⟨hSocket, rfl⟩ := pushAdd_eq_some.mp h
      refine ⟨valid, fun token hToken => ?_, running⟩
      rcases List.mem_append.mp hToken with hToken | hToken
      · exact pending token hToken
      · rw [List.mem_singleton.mp hToken]
        exact hSocket
  | pushRemove socket =>
      obtain ⟨_, rfl⟩ := pushRemove_eq_some.mp h
      exact ⟨valid, pending, running⟩
  | notifyPending =>
      obtain ⟨_, rfl⟩ := notifyPending_eq_some.mp h
      exact ⟨valid, pending, running⟩
  | notify =>
      cases h
      exact ⟨valid, pending, running⟩
  | close =>
      cases h
      exact ⟨valid, pending, running⟩
  | wake =>
      obtain ⟨_, _, rfl⟩ := wake_eq_some.mp h
      refine ⟨valid, pending, ?_⟩
      dsimp only
      split_ifs <;> simp
  | drain =>
      obtain ⟨work, hWork, hValid, _⟩ := Sound.drained ⟨valid, pending, running⟩
      obtain ⟨_, ⟨hFault, _⟩ | ⟨next, hNext, rfl⟩⟩ := drain_eq_some.mp h
      · rw [hFault] at hWork
        cases hWork
      · rw [hNext] at hWork
        cases hWork
        exact ⟨hValid, by simp, by simp⟩
  | poll revents =>
      obtain ⟨satisfied, _, rfl⟩ := poll_eq_some.mp h
      refine ⟨valid.keep ?_ fun _ => rfl, pending, by simp⟩
      simp [Work.sockets, PollHandle.absSocket]
  | callback answer =>
      obtain ⟨satisfied, cursor, key, _, hKey, hUpdate⟩ := callback_eq_some.mp h
      obtain ⟨work, cursor', hWork, hValid, _⟩ := updateHandle_valid valid answer cursor hKey
      rcases hUpdate with ⟨hFault, _⟩ | ⟨next, _, hNext, rfl⟩
      · rw [hFault] at hWork
        cases hWork
      · rw [hNext] at hWork
        cases hWork
        exact ⟨hValid, pending, by simp⟩
  | endUpdate =>
      obtain ⟨_, _, _, _, rfl⟩ := endUpdate_eq_some.mp h
      exact ⟨valid, pending, by simp⟩
  | store =>
      obtain ⟨_, _, _, rfl⟩ := store_eq_some.mp h
      exact ⟨valid, pending, by simp⟩

/-- The tables are valid in every reachable state. -/
theorem sound_of_runs {actions : List (Action Object)} {s : Pipeline Object}
    (run : Runs step init actions s) : Sound s :=
  run.invariant sound_init fun _ _ _ sound h => sound.step h

/-- In every state the clients, the callbacks and the worker can reach, the
absolute sockets of the handles are distinct and are exactly the keys of the
info map, and no lookup or erase has met a missing entry. -/
theorem reachable_valid (actions : List (Action Object)) (s : Pipeline Object)
    (run : Runs step init actions s) :
    (s.work.handles.map PollHandle.absSocket).Nodup ∧
      (∀ socket, (s.work.info socket).isSome = true ↔
        socket ∈ s.work.handles.map PollHandle.absSocket) ∧
      s.worker ≠ .faulted :=
  have sound := sound_of_runs run
  ⟨sound.valid.distinct, sound.valid.keys, sound.running⟩

/-- A pass that removes a socket never added, ignores one and quits another. -/
def ignoreAndQuit : List (Action Unit) :=
  [.pushAdd 5 (), .pushAdd 0 (), .pushRemove 7, .notifyPending, .wake, .drain, .poll fun _ => 1,
    .callback ⟨.ignore, pollIn⟩, .callback ⟨.quit, pollIn⟩, .endUpdate, .store]

/-- A handle that is ignored, and one that has quit. -/
theorem reachable_valid_ignoreAndQuit :
    ∃ s, Runs step init ignoreAndQuit s ∧ s.work.handles = [⟨-5, 1, 0⟩] ∧
      (s.work.handles.map PollHandle.absSocket).Nodup ∧
      (∀ socket, (s.work.info socket).isSome = true ↔
        socket ∈ s.work.handles.map PollHandle.absSocket) ∧
      s.worker ≠ .faulted :=
  ⟨_, runs_iff_foldlM.mpr rfl, rfl, reachable_valid ignoreAndQuit _ (runs_iff_foldlM.mpr rfl)⟩

end ImpactSockets.AsyncPipeline
