import Mathlib.Algebra.Group.Nat.Defs
import ImpactSockets.Sockets.AsyncPipeline.Notification

/-! One pass of callbacks over the handles: the loop of `_M_update_handles` as a
whole, with an index that wraps. -/
namespace ImpactSockets.AsyncPipeline

open Transition

variable {Object : Type}

/-! ### The loop -/

/-- A call of `async_callback`. -/
structure Call (Object : Type) where
  object : Object
  handle : PollHandle
  error : Int

/-- What the loop works on, with the calls it has made. -/
structure Pass (Object : Type) where
  work : Work Object
  i : UInt64
  ignored : UInt64
  calls : List (Call Object)

/-- The body of the loop in `_M_update_handles`, on the handle `key`. The callbacks
answer as they are called, with the n-th of `answers` for the n-th call. `none` is a
call through the end iterator of `m_work_info_`. -/
def updateBody (error : Int) (answers : Nat → Answer) (pass : Pass Object) (key : PollHandle) : Option (Pass Object) :=
  let socket := key.absSocket
  match pass.work.info socket with
  | none => none
  | some object =>
      let answer := answers pass.calls.length
      let pass : Pass Object := { pass with calls := pass.calls ++ [⟨object, key, error⟩] }
      match answer.option with
      | .quit => some { pass with
          work := ⟨pass.work.handles.eraseIdx pass.i.toNat, Function.update pass.work.info socket none⟩
          i := pass.i - 1 }
      | option =>
          let socket := if option = .ignore then -socket else socket
          let ignored := if option = .ignore ∧ socket = 0 then pass.ignored + 1 else pass.ignored
          some { pass with
            work := { pass.work with handles := pass.work.handles.set pass.i.toNat ⟨socket, answer.events, 0⟩ }
            ignored := if socket < 0 then ignored + 1 else ignored }

/-- The loop in `_M_update_handles`. `none` is a fault in the body, or a loop that
has not ended after `fuel` tests of its condition. -/
def updateLoop (error : Int) (answers : Nat → Answer) : Nat → Pass Object → Option (Pass Object)
  | 0, _ => none
  | fuel + 1, pass =>
      match pass.work.handles[pass.i.toNat]? with
      | none => some pass
      | some key =>
          match updateBody error answers pass key with
          | none => none
          | some next => updateLoop error answers fuel { next with i := next.i + 1 }

/-- `_M_update_handles`, with its result and what it leaves behind. -/
def updateHandles (error : Int) (answers : Nat → Answer) (fuel : Nat) (work : Work Object) :
    Option (Pass Object × Bool) :=
  (updateLoop error answers fuel ⟨work, 0, 0, []⟩).map fun pass =>
    (pass, pass.ignored.toNat == pass.work.handles.length)

/-! ### What a pass is for -/

/-- What is left of a handle once its callback has answered. -/
def keptHandle (handle : PollHandle) (answer : Answer) : Option PollHandle :=
  match answer.option with
  | .quit => none
  | .ignore => some ⟨-handle.absSocket, answer.events, 0⟩
  | .continue_ => some ⟨handle.absSocket, answer.events, 0⟩

theorem keptHandle_isSome (handle : PollHandle) (answer : Answer) :
    (keptHandle handle answer).isSome = !(answer.option == .quit) := by
  cases hOption : answer.option <;> simp [keptHandle, hOption]

/-- The handles with the answers to their callbacks, when calls go from `first` on. -/
def answered (answers : Nat → Answer) (first : Nat) (handles : List PollHandle) : List (PollHandle × Answer) :=
  (handles.zipIdx first).map fun entry => (entry.1, answers entry.2)

/-- The sockets whose callbacks have quit. -/
def quitSockets (entries : List (PollHandle × Answer)) : List Int :=
  (entries.filter fun entry => entry.2.option == .quit).map fun entry => entry.1.absSocket

theorem answered_cons (answers : Nat → Answer) (first : Nat) (key : PollHandle) (rest : List PollHandle) :
    answered answers first (key :: rest) = (key, answers first) :: answered answers (first + 1) rest := rfl

theorem quitSockets_cons (entry : PollHandle × Answer) (entries : List (PollHandle × Answer)) :
    quitSockets (entry :: entries) =
      if entry.2.option = .quit then entry.1.absSocket :: quitSockets entries else quitSockets entries := by
  unfold quitSockets
  by_cases hQuit : entry.2.option = .quit
  · rw [if_pos hQuit, List.filter_cons_of_pos (by simpa using hQuit), List.map_cons]
  · rw [if_neg hQuit, List.filter_cons_of_neg (by simpa using hQuit)]

/-! ### The body -/

/-- One callback has been made, on a handle between others, and the index has been
incremented. -/
structure Advanced (call : Call Object) (answer : Answer) (before rest : List PollHandle)
    (pass next : Pass Object) : Prop where
  handles : next.work.handles = before ++ (keptHandle call.handle answer).toList ++ rest
  index : next.i.toNat = (before ++ (keptHandle call.handle answer).toList).length
  ignored : next.ignored.toNat = pass.ignored.toNat + if answer.option = .ignore then 1 else 0
  info : next.work.info =
    if answer.option = .quit then Function.update pass.work.info call.handle.absSocket none else pass.work.info
  calls : next.calls = pass.calls ++ [call]

theorem toNat_succ {n : UInt64} (h : n.toNat + 1 < 2 ^ 64) : (n + 1).toNat = n.toNat + 1 := by
  rw [UInt64.toNat_add]
  exact Nat.mod_eq_of_lt h

/-- A socket that is ignored is counted once: descriptor 0 as the special case, every
other one by its sign. -/
theorem ignored_once {α : Type} [Add α] [OfNat α 1] {socket : Int} (h : 0 ≤ socket) (ignored : α) :
    (if -socket < 0 then (if -socket = 0 then ignored + 1 else ignored) + 1
      else if -socket = 0 then ignored + 1 else ignored) = ignored + 1 := by
  by_cases hZero : socket = 0
  · simp [hZero]
  · rw [if_pos (by omega), if_neg (by omega)]

/-- One turn of the loop, as the handle that is kept or removed and what is left. -/
theorem updateBody_advanced {error : Int} {answers : Nat → Answer} {pass : Pass Object} {before rest : List PollHandle}
    {key : PollHandle} {object : Object} (hHandles : pass.work.handles = before ++ key :: rest)
    (hIndex : pass.i.toNat = before.length) (hRoom : before.length + 1 < 2 ^ 64)
    (hIgnored : pass.ignored.toNat ≤ before.length) (hInfo : pass.work.info key.absSocket = some object) :
    ∃ next, updateBody error answers pass key = some next ∧
      Advanced ⟨object, key, error⟩ (answers pass.calls.length) before rest pass { next with i := next.i + 1 } := by
  have hErase : pass.work.handles.eraseIdx pass.i.toNat = before ++ rest := by
    rw [hHandles, hIndex, List.eraseIdx_append_of_length_le (Nat.le_refl _), Nat.sub_self]
    rfl
  have hSet (handle : PollHandle) : pass.work.handles.set pass.i.toNat handle = before ++ handle :: rest := by
    rw [hHandles, hIndex, List.set_append_right _ _ (Nat.le_refl _), Nat.sub_self]
    rfl
  have hNext : (pass.i + 1).toNat = before.length + 1 := by rw [toNat_succ (by omega), hIndex]
  have hCount : (pass.ignored + 1).toNat = pass.ignored.toNat + 1 := toNat_succ (by omega)
  have hSocket : 0 ≤ key.absSocket := Int.natCast_nonneg _
  unfold updateBody
  cases hOption : (answers pass.calls.length).option with
  | quit =>
      simp only [hInfo, hOption, hErase]
      exact ⟨_, rfl, by simp [keptHandle, hOption], by simp [keptHandle, hOption, hIndex],
        by simp [hOption], by simp [hOption], rfl⟩
  | continue_ =>
      have hSign : ¬key.absSocket < 0 := Int.not_lt.mpr hSocket
      simp only [hInfo, hOption, hSet, reduceCtorEq, false_and, ↓reduceIte, hSign]
      exact ⟨_, rfl, by simp [keptHandle, hOption], by simp [keptHandle, hOption, hNext], by simp [hOption],
        by simp [hOption], rfl⟩
  | ignore =>
      simp only [hInfo, hOption, hSet, true_and, ↓reduceIte, ignored_once hSocket pass.ignored]
      exact ⟨_, rfl, by simp [keptHandle, hOption], by simp [keptHandle, hOption, hNext], by simp [hOption, hCount],
        by simp [hOption], rfl⟩

/-- Neither the index nor the counter of ignored handles passes the handles. -/
theorem Advanced.bounds {call : Call Object} {answer : Answer} {before rest : List PollHandle}
    {pass next : Pass Object} (advanced : Advanced call answer before rest pass next)
    (hIgnored : pass.ignored.toNat ≤ before.length) :
    (before ++ (keptHandle call.handle answer).toList).length ≤ before.length + 1 ∧
      next.ignored.toNat ≤ (before ++ (keptHandle call.handle answer).toList).length := by
  rw [advanced.ignored, List.length_append]
  cases hOption : answer.option <;> simp [keptHandle, hOption] <;> omega

/-! ### Runs of the loop -/

/-- The loop has gone over `rest`, with the handles it has kept before in `before`. -/
structure PassedOver (error : Int) (answers : Nat → Answer) (before rest : List PollHandle)
    (pass final : Pass Object) : Prop where
  handles : final.work.handles = before ++
    (answered answers pass.calls.length rest).filterMap fun entry => keptHandle entry.1 entry.2
  ignored : final.ignored.toNat = pass.ignored.toNat +
    (answered answers pass.calls.length rest).countP fun entry => entry.2.option == .ignore
  info : ∀ socket, final.work.info socket =
    if socket ∈ quitSockets (answered answers pass.calls.length rest) then none else pass.work.info socket
  calls : final.calls = pass.calls ++ rest.filterMap fun handle =>
    (pass.work.info handle.absSocket).map fun object => ⟨object, handle, error⟩

/-- The callback of `key`, and then the others. -/
theorem Advanced.passedOver {error : Int} {answers : Nat → Answer} {before rest : List PollHandle}
    {pass next final : Pass Object} {key : PollHandle} {object : Object}
    (advanced : Advanced ⟨object, key, error⟩ (answers pass.calls.length) before rest pass next)
    (hInfo : pass.work.info key.absSocket = some object)
    (hOther : ∀ handle ∈ rest, next.work.info handle.absSocket = pass.work.info handle.absSocket)
    (passed : PassedOver error answers (before ++ (keptHandle key (answers pass.calls.length)).toList) rest next final) :
    PassedOver error answers before (key :: rest) pass final := by
  have hLength : next.calls.length = pass.calls.length + 1 := by
    simp [advanced.calls]
  constructor
  · rw [passed.handles, hLength, answered_cons, List.append_assoc]
    cases hKept : keptHandle key (answers pass.calls.length) with
    | none => simp [hKept]
    | some handle => simp [hKept]
  · rw [passed.ignored, hLength, advanced.ignored, answered_cons, List.countP_cons]
    simp only [beq_iff_eq]
    omega
  · intro socket
    rw [passed.info, hLength, advanced.info, answered_cons, quitSockets_cons]
    by_cases hQuit : (answers pass.calls.length).option = .quit
    · simp only [hQuit, ↓reduceIte, List.mem_cons, Function.update_apply]
      by_cases hKey : socket = key.absSocket <;> simp [hKey]
    · simp only [hQuit, ↓reduceIte]
  · have hRest : (rest.filterMap fun handle => (next.work.info handle.absSocket).map fun object =>
        (⟨object, handle, error⟩ : Call Object)) =
        rest.filterMap fun handle => (pass.work.info handle.absSocket).map fun object => ⟨object, handle, error⟩ :=
      List.filterMap_congr fun handle hHandle => by rw [hOther handle hHandle]
    rw [passed.calls, advanced.calls, hRest, List.filterMap_cons, hInfo, List.append_assoc]
    rfl

/-- Induction over the handles that are left. Erasing one and stepping back brings
the next one under the index. -/
theorem updateLoop_passedOver {error : Int} {answers : Nat → Answer} {before rest : List PollHandle}
    {pass : Pass Object} {fuel : Nat} (hHandles : pass.work.handles = before ++ rest)
    (hIndex : pass.i.toNat = before.length) (hRoom : before.length + rest.length < 2 ^ 64)
    (hIgnored : pass.ignored.toNat ≤ before.length) (hDistinct : (rest.map PollHandle.absSocket).Nodup)
    (hKeys : ∀ handle ∈ rest, (pass.work.info handle.absSocket).isSome = true) (hFuel : rest.length < fuel) :
    ∃ final, updateLoop error answers fuel pass = some final ∧ PassedOver error answers before rest pass final := by
  induction rest generalizing before pass fuel with
  | nil =>
      obtain ⟨fuel, rfl⟩ := Nat.exists_eq_succ_of_ne_zero (Nat.ne_of_gt hFuel)
      have hEnd : pass.work.handles[pass.i.toNat]? = none := by
        rw [hHandles, hIndex, List.append_nil]
        exact List.getElem?_eq_none (Nat.le_refl _)
      refine ⟨pass, by rw [updateLoop, hEnd], by simpa [answered] using hHandles, ?_, ?_, ?_⟩
      · simp [answered]
      · simp [answered, quitSockets]
      · simp
  | cons key rest ih =>
      obtain ⟨fuel, rfl⟩ := Nat.exists_eq_succ_of_ne_zero (Nat.ne_of_gt (Nat.lt_of_le_of_lt (Nat.zero_le _) hFuel))
      obtain ⟨object, hInfo⟩ := Option.isSome_iff_exists.mp (hKeys key (List.mem_cons_self ..))
      have hKey : pass.work.handles[pass.i.toNat]? = some key := by
        rw [hHandles, hIndex, List.getElem?_append_right (Nat.le_refl _), Nat.sub_self]
        rfl
      rw [List.length_cons] at hRoom hFuel
      rw [List.map_cons, List.nodup_cons] at hDistinct
      obtain ⟨next, hBody, advanced⟩ := @updateBody_advanced _ error answers _ _ _ _ _ hHandles hIndex (by omega)
        hIgnored hInfo
      have hOther : ∀ handle ∈ rest, next.work.info handle.absSocket = pass.work.info handle.absSocket := by
        intro handle hHandle
        have hNe : handle.absSocket ≠ key.absSocket := fun hEq => hDistinct.1 (hEq ▸ List.mem_map_of_mem hHandle)
        rw [show next.work.info = _ from advanced.info]
        split_ifs
        · exact Function.update_of_ne hNe _ _
        · rfl
      have hLength : (before ++ (keptHandle key (answers pass.calls.length)).toList).length ≤ before.length + 1 :=
        (advanced.bounds hIgnored).1
      obtain ⟨final, hFinal, passed⟩ := @ih (before ++ (keptHandle key (answers pass.calls.length)).toList)
        { next with i := next.i + 1 } fuel advanced.handles advanced.index (by omega) (advanced.bounds hIgnored).2
        hDistinct.2 (fun handle hHandle => by
          rw [hOther handle hHandle]
          exact hKeys handle (List.mem_cons_of_mem _ hHandle)) (by omega)
      refine ⟨final, ?_, advanced.passedOver hInfo hOther passed⟩
      rw [updateLoop, hKey]
      dsimp only
      rw [hBody]
      exact hFinal

/-! ### The whole pass -/

/-- What a pass finds: containers that agree, in a vector of handles whose size is a
`size_t`. -/
structure Work.Ready (work : Work Object) : Prop where
  valid : work.Valid
  fits : work.handles.length < 2 ^ 64

/-- Every registered callback has been called once, in the order of the handles, and
the containers are what the answers make of them. -/
structure PassedOnce (error : Int) (answers : Nat → Answer) (work : Work Object) (pass : Pass Object)
    (allIgnored : Bool) : Prop where
  called : pass.calls.map Call.handle = work.handles
  registered : ∀ call ∈ pass.calls, work.info call.handle.absSocket = some call.object ∧ call.error = error
  once : ∀ socket, (pass.calls.map fun call => call.handle.absSocket).count socket =
    if (work.info socket).isSome then 1 else 0
  kept : pass.work.handles = (answered answers 0 work.handles).filterMap fun entry => keptHandle entry.1 entry.2
  removed : ∀ socket, pass.work.info socket =
    if socket ∈ quitSockets (answered answers 0 work.handles) then none else work.info socket
  result : allIgnored = true ↔
    ∀ entry ∈ answered answers 0 work.handles, entry.2.option ≠ .quit → entry.2.option = .ignore

theorem isSome_of_valid {work : Work Object} (valid : work.Valid) {handle : PollHandle} (h : handle ∈ work.handles) :
    (work.info handle.absSocket).isSome = true :=
  (valid.keys _).mpr (List.mem_map_of_mem h)

/-- As many handles are ignored as are kept if no callback that keeps its handle
continues. -/
theorem countP_eq_length_iff (entries : List (PollHandle × Answer)) :
    (entries.countP fun entry => entry.2.option == .ignore) =
        (entries.filterMap fun entry => keptHandle entry.1 entry.2).length ↔
      ∀ entry ∈ entries, entry.2.option ≠ .quit → entry.2.option = .ignore := by
  rw [List.length_filterMap_eq_countP]
  induction entries with
  | nil => simp
  | cons entry entries ih =>
      have hLe : (entries.countP fun entry => entry.2.option == .ignore) ≤
          entries.countP fun entry => (keptHandle entry.1 entry.2).isSome :=
        List.countP_mono_left fun entry _ => by
          rw [keptHandle_isSome]
          cases entry.2.option <;> simp
      rw [List.countP_cons, List.countP_cons, List.forall_mem_cons, ← ih, keptHandle_isSome]
      cases entry.2.option with
      | continue_ =>
          refine iff_of_false (fun h => ?_) (by simp)
          simp at h
          omega
      | ignore => simp
      | quit => simp

/-- The loop ends after one test of its condition more than there are handles. -/
theorem updateHandles_passedOnce (error : Int) (answers : Nat → Answer) {work : Work Object} (ready : work.Ready)
    {fuel : Nat} (hFuel : work.handles.length < fuel) : ∃ pass allIgnored,
    updateHandles error answers fuel work = some (pass, allIgnored) ∧
      PassedOnce error answers work pass allIgnored := by
  obtain ⟨final, hFinal, passed⟩ := @updateLoop_passedOver _ error answers [] work.handles ⟨work, 0, 0, []⟩ fuel rfl rfl
    (by simpa using ready.fits) (Nat.le_refl _) ready.valid.distinct (fun _ => isSome_of_valid ready.valid) hFuel
  have hCalled : final.calls.map Call.handle = work.handles := by
    rw [passed.calls, List.nil_append, List.map_filterMap]
    refine (List.filterMap_congr fun handle hHandle => ?_).trans List.filterMap_some
    obtain ⟨object, hInfo⟩ := Option.isSome_iff_exists.mp (isSome_of_valid ready.valid hHandle)
    simp [hInfo]
  refine ⟨final, _, by rw [updateHandles, hFinal]; rfl, hCalled, fun call hCall => ?_, fun socket => ?_, ?_, ?_, ?_⟩
  · rw [passed.calls, List.nil_append, List.mem_filterMap] at hCall
    obtain ⟨handle, _, hInfo⟩ := hCall
    obtain ⟨object, hObject, rfl⟩ := Option.map_eq_some_iff.mp hInfo
    exact ⟨hObject, rfl⟩
  · have hSockets : (final.calls.map fun call => call.handle.absSocket) = work.sockets := by
      rw [Work.sockets, ← hCalled, List.map_map]
      rfl
    rw [hSockets, List.Nodup.count ready.valid.distinct]
    exact if_congr (ready.valid.keys socket).symm rfl rfl
  · simpa using passed.handles
  · exact passed.info
  · rw [beq_iff_eq, passed.handles, passed.ignored, List.nil_append, ← countP_eq_length_iff]
    simp

/-- A pass over descriptor 0, which is ignored, one that quits, and one that is
ignored again. -/
theorem updateHandles_passedOnce_zero : ∃ pass allIgnored,
    updateHandles 0 (fun n => ⟨if n = 1 then .quit else .ignore, pollIn⟩) 4
        (⟨[⟨0, 1, 1⟩, ⟨7, 1, 1⟩, ⟨-5, 1, 0⟩],
          fun socket => if socket ∈ [0, 7, 5] then some socket else none⟩ : Work Int) =
      some (pass, allIgnored) ∧
    PassedOnce 0 (fun n => ⟨if n = 1 then .quit else .ignore, pollIn⟩)
      ⟨[⟨0, 1, 1⟩, ⟨7, 1, 1⟩, ⟨-5, 1, 0⟩], fun socket => if socket ∈ [0, 7, 5] then some socket else none⟩
      pass allIgnored :=
  updateHandles_passedOnce 0 _ ⟨⟨by decide, fun socket => by
    rw [show Work.sockets _ = [0, 7, 5] from rfl]
    dsimp only
    split_ifs with h <;> simp [h]⟩, by decide⟩ (by decide)

/-! ### The pass among the steps of the pipeline -/

/-- Below 2^64 the turn with its wrapping index is the step of the pipeline. -/
theorem updateHandle_of_updateBody {error : Int} {answers : Nat → Answer} {pass next : Pass Object} {key : PollHandle}
    (hIndex : pass.i.toNat + 1 < 2 ^ 64) (hIgnored : pass.ignored.toNat + 1 < 2 ^ 64)
    (h : updateBody error answers pass key = some next) :
    updateHandle (answers pass.calls.length) pass.work ⟨pass.i.toNat, pass.ignored.toNat⟩ key =
        some (next.work, ⟨(next.i + 1).toNat, next.ignored.toNat⟩) ∧
      next.calls.length = pass.calls.length + 1 := by
  have hNext := toNat_succ hIndex
  have hCount := toNat_succ hIgnored
  have hSocket : 0 ≤ key.absSocket := Int.natCast_nonneg _
  unfold updateBody at h
  unfold updateHandle
  cases hInfo : pass.work.info key.absSocket with
  | none => simp [hInfo] at h
  | some object =>
      cases hOption : (answers pass.calls.length).option with
      | quit =>
          simp only [hInfo, hOption, Option.some.injEq] at h ⊢
          subst h
          simp
      | continue_ =>
          have hSign : ¬key.absSocket < 0 := Int.not_lt.mpr hSocket
          simp only [hInfo, hOption, reduceCtorEq, false_and, ↓reduceIte, hSign, Option.some.injEq] at h ⊢
          subst h
          simp [hNext]
      | ignore =>
          simp only [hInfo, hOption, true_and, ↓reduceIte, Option.some.injEq, ignored_once hSocket pass.ignored,
            ignored_once hSocket pass.ignored.toNat] at h ⊢
          subst h
          simp [hNext, hCount]

theorem updateHandle_bounds {answer : Answer} {work next : Work Object} {cursor cursor' : Cursor} {key : PollHandle}
    (hBound : cursor.i < work.handles.length) (hIgnored : cursor.ignored ≤ cursor.i)
    (h : updateHandle answer work cursor key = some (next, cursor')) :
    cursor'.i ≤ next.handles.length ∧ cursor'.ignored ≤ cursor'.i ∧ next.handles.length ≤ work.handles.length := by
  rcases updateHandle_cursor hBound h with ⟨_, rfl, hLength⟩ | ⟨_, rfl, hLength⟩ | ⟨_, rfl, hLength⟩
  · omega
  · dsimp only
    omega
  · dsimp only
    omega

/-- The callbacks of a pass, when `first` have been made before. -/
def callbacks (answers : Nat → Answer) (first count : Nat) : List (Action Object) :=
  (List.range' first count).map fun n => .callback (answers n)

/-- The steps of the pipeline make the same pass. -/
theorem foldlM_callbacks {error : Int} {answers : Nat → Answer} {fuel : Nat} {pass final : Pass Object}
    {s : Pipeline Object} {satisfied : Int} (hWork : s.work = pass.work)
    (hWorker : s.worker = .updating satisfied ⟨pass.i.toNat, pass.ignored.toNat⟩)
    (hIndex : pass.i.toNat ≤ pass.work.handles.length) (hIgnored : pass.ignored.toNat ≤ pass.i.toNat)
    (hRoom : pass.work.handles.length < 2 ^ 64) (h : updateLoop error answers fuel pass = some final) :
    ∃ count, final.calls.length = pass.calls.length + count ∧ final.work.handles.length ≤ final.i.toNat ∧
      (callbacks answers pass.calls.length count).foldlM step s = some { s with
        work := final.work, worker := .updating satisfied ⟨final.i.toNat, final.ignored.toNat⟩ } := by
  induction fuel generalizing pass s with
  | zero => cases h
  | succ fuel ih =>
      rw [updateLoop] at h
      cases hKey : pass.work.handles[pass.i.toNat]? with
      | none =>
          rw [hKey] at h
          cases h
          refine ⟨0, rfl, List.getElem?_eq_none_iff.mp hKey, ?_⟩
          rw [← hWork, ← hWorker]
          rfl
      | some key =>
          have hBound := (List.getElem?_eq_some_iff.mp hKey).1
          rw [hKey] at h
          cases hBody : updateBody error answers pass key with
          | none =>
              simp only [hBody] at h
              cases h
          | some next =>
              simp only [hBody] at h
              obtain ⟨hUpdate, hCalls⟩ := updateHandle_of_updateBody (by omega) (by omega) hBody
              obtain ⟨hNext, hCount, hLength⟩ := updateHandle_bounds hBound hIgnored hUpdate
              obtain ⟨count, hTotal, hEnd, hRun⟩ := @ih { next with i := next.i + 1 }
                { s with work := next.work, worker := .updating satisfied ⟨(next.i + 1).toNat, next.ignored.toNat⟩ }
                rfl rfl hNext hCount (Nat.lt_of_le_of_lt hLength hRoom) h
              dsimp only at hTotal
              refine ⟨count + 1, by omega, hEnd, ?_⟩
              have hStep : step s (.callback (answers pass.calls.length)) = some
                  { s with work := next.work, worker := .updating satisfied ⟨(next.i + 1).toNat, next.ignored.toNat⟩ } :=
                callback_eq_some.mpr ⟨satisfied, _, key, hWorker, hWork ▸ hKey, .inr ⟨_, _, hWork ▸ hUpdate, rfl⟩⟩
              rw [callbacks, List.range'_succ, List.map_cons, List.foldlM_cons, hStep]
              rw [hCalls] at hRun
              exact hRun

/-- A pass of the worker is the loop as a whole: it takes as many callbacks as there
are handles, and hands on the result negated. -/
theorem updateHandles_runs (error : Int) (answers : Nat → Answer) {s : Pipeline Object} {satisfied : Int}
    (hWorker : s.worker = .updating satisfied ⟨0, 0⟩) (ready : s.work.Ready) {fuel : Nat}
    (hFuel : s.work.handles.length < fuel) : ∃ pass allIgnored,
    updateHandles error answers fuel s.work = some (pass, allIgnored) ∧
      Runs step s (callbacks answers 0 s.work.handles.length ++ [.endUpdate])
        { s with work := pass.work, worker := .storing satisfied (!allIgnored) } := by
  obtain ⟨pass, allIgnored, hPass, passed⟩ := updateHandles_passedOnce error answers ready hFuel
  obtain ⟨final, hFinal, hResult⟩ := Option.map_eq_some_iff.mp hPass
  obtain ⟨rfl, rfl⟩ := Prod.mk.inj hResult
  obtain ⟨count, hCount, hEnd, hRun⟩ := @foldlM_callbacks _ error answers fuel ⟨s.work, 0, 0, []⟩ final s satisfied rfl
    hWorker (Nat.zero_le _) (Nat.le_refl _) ready.fits hFinal
  have hCalls : count = s.work.handles.length := by
    rw [← passed.called, List.length_map, hCount]
    simp
  have hMiddle := runs_iff_foldlM.mpr (hCalls ▸ hRun)
  have hNegated : (!(final.ignored.toNat == final.work.handles.length)) =
      decide (final.ignored.toNat ≠ final.work.handles.length) := by
    rw [decide_not, beq_eq_decide]
  refine ⟨final, _, hPass, hMiddle.snoc ?_⟩
  rw [step, endUpdate_eq_some, hNegated]
  exact ⟨satisfied, _, rfl, hEnd, rfl⟩

end ImpactSockets.AsyncPipeline
