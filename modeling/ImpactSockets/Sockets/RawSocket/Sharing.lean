import ImpactSockets.Sockets.RawSocket.Refinement

/-! Copies of a raw socket share a descriptor, which the first of them to be destroyed closes
for all of them. -/
namespace ImpactSockets.RawSockets

open BasicSocket Transition

variable {m n : Program} {actions : List Action} {action : Action} {info : Nat}

/-- A raw socket with the record has been destroyed. -/
def Shut (actions : List Action) (info : Nat) : Prop :=
  ∃ before k m, before ++ [.destroy k] <+: actions ∧ Runs step init before m ∧ m.record k = some info

/-- The descriptors that the system has handed out in the course of a run. -/
def handedOut (actions : List Action) : List Int :=
  actions.filterMap fun
    | .construct descriptor => if descriptor = invalidSocket then none else some descriptor
    | _ => none

/-- A record is shut after a run or by its last step. -/
theorem shut_concat (run : Runs step init actions m) :
    Shut (actions ++ [action]) info ↔ Shut actions info ∨ ∃ k, action = .destroy k ∧ m.record k = some info := by
  constructor
  · rintro ⟨before, k, prior, hPrefix, hRun, hRecord⟩
    rcases List.prefix_concat_iff.mp hPrefix with hEq | hPrefix
    · obtain ⟨rfl, hLast⟩ := List.append_inj' hEq rfl
      cases hRun.deterministic run
      exact .inr ⟨k, (List.cons.inj hLast).1.symm, hRecord⟩
    · exact .inl ⟨before, k, prior, hPrefix, hRun, hRecord⟩
  · rintro (⟨before, k, prior, hPrefix, hRun, hRecord⟩ | ⟨k, rfl, hRecord⟩)
    · exact ⟨before, k, prior, hPrefix.trans (List.prefix_append _ _), hRun, hRecord⟩
    · exact ⟨actions, k, m, List.prefix_refl _, run, hRecord⟩

/-! ### Operations -/

/-- What an operation does to the records that are referred to, and to their descriptors. -/
inductive Effect (m : Program) : Action → Program → Prop where
  | keep {action : Action} {n : Program}
      (hDestroy : ∀ k info, action = .destroy k → m.record k = some info → m.process.descriptor info = invalidSocket)
      (hHandedOut : handedOut [action] = [])
      (hInfos : m.process.infos.length ≤ n.process.infos.length)
      (hDescriptor : ∀ info, n.process.descriptor info = m.process.descriptor info)
      (hOpened : n.process.opened = m.process.opened) (hCloses : n.process.closes = m.process.closes)
      (hTaken : ∀ handle info, n.process.info handle = some info → ∃ other, m.process.info other = some info)
      (hHeld : ∀ handle info, m.process.info handle = some info → m.process.descriptor info ≠ invalidSocket →
        ∃ other, n.process.info other = some info) : Effect m action n
  | opens {n : Program} (descriptor : Int) (new : Nat) (hValid : descriptor ≠ invalidSocket)
      (hNew : m.process.infos.length ≤ new) (hBound : new < n.process.infos.length)
      (hDescriptor : ∀ info, n.process.descriptor info = if info = new then descriptor else m.process.descriptor info)
      (hOpened : n.process.opened = m.process.opened ++ [descriptor]) (hCloses : n.process.closes = m.process.closes)
      (hTaken : ∀ handle info, n.process.info handle = some info →
        info = new ∨ ∃ other, m.process.info other = some info)
      (hHeld : ∀ handle info, m.process.info handle = some info → ∃ other, n.process.info other = some info)
      (hMine : ∃ handle, n.process.info handle = some new) : Effect m (.construct descriptor) n
  | closes {action : Action} {n : Program} (info : Nat) (h : m.process.descriptor info ≠ invalidSocket)
      (hAction : (∃ k, action = .destroy k ∧ m.record k = some info) ∨
        (∀ k, action ≠ .destroy k) ∧ ∀ handle, n.process.info handle ≠ some info)
      (hHandedOut : handedOut [action] = [])
      (hInfos : n.process.infos = m.process.infos.set info invalidSocket)
      (hOpened : n.process.opened = m.process.opened.erase (m.process.descriptor info))
      (hCloses : n.process.closes = m.process.closes ++ [m.process.descriptor info])
      (hTaken : ∀ handle info, n.process.info handle = some info → ∃ other, m.process.info other = some info)
      (hHeld : ∀ handle other, m.process.info handle = some other → other ≠ info →
        ∃ handle, n.process.info handle = some other) : Effect m action n

variable {s t : Process}

/-- The records that were there keep their descriptors. -/
theorem descriptor_grown (handles : List Handle) (infos : List Int) (info : Nat) :
    (grown s handles infos).descriptor info =
      if info < s.infos.length then s.descriptor info else infos.getD (info - s.infos.length) invalidSocket := by
  split_ifs with hOld
  · simp [Process.descriptor, grown, List.getElem?_append_left hOld]
  · have hAdd := @grown_descriptor_add s handles infos (info - s.infos.length)
    rwa [Nat.add_sub_cancel' (by omega)] at hAdd

/-- A record that does not exist has no descriptor. -/
theorem descriptor_of_le (h : s.infos.length ≤ info) : s.descriptor info = invalidSocket := by
  by_contra hValid
  exact absurd (lt_of_descriptor hValid) (by omega)

/-- The handles that were there keep their records. -/
theorem info_grown_held {handle : Nat} (h : s.info handle = some info) (handles : List Handle) (infos : List Int) :
    (grown s handles infos).info handle = some info := by
  rw [info_grown_of_lt (Process.lt_of_info h), h]

/-- A record of the new process is one of the old, or of a new handle. -/
theorem info_grown_cases {handle : Nat} {handles : List Handle} {infos : List Int}
    (h : (grown s handles infos).info handle = some info) :
    s.info handle = some info ∨ .live (some info) ∈ handles := by
  by_cases hOld : handle < s.handles.length
  · exact .inl ((info_grown_of_lt hOld).symm.trans h)
  · rw [info_grown_of_le (by omega), newInfo, Process.info_eq_some] at h
    exact .inr (List.mem_of_getElem? h)

/-- The constructor opens a descriptor for a new record, or changes nothing that is held. -/
theorem effect_construct (referenced : Referenced m.process) (descriptor : Int) :
    Effect m (.construct descriptor) (construct descriptor m).1 := by
  have hLength (handles : List Handle) (infos : List Int) (s : Process) :
      (grown s handles infos).infos.length = s.infos.length + infos.length := List.length_append
  by_cases hInvalid : descriptor = invalidSocket
  · subst hInvalid
    rw [construct_refused referenced]
    refine .keep (by simp) (by simp [handedOut]) ?_ (fun info => ?_) rfl rfl (fun handle info h => ?_)
      fun handle info h _ => ⟨handle, info_grown_held h _ _⟩
    · rw [hLength]
      exact Nat.le_add_right _ _
    · rw [descriptor_grown]
      split_ifs with hOld
      · rfl
      · rw [descriptor_of_le (by omega)]
        cases info - m.process.infos.length <;> rfl
    · exact ⟨handle, (info_grown_cases h).resolve_right (by simp)⟩
  · rw [construct_opened referenced hInvalid]
    have hTwo := hLength [.live (some (m.process.infos.length + 1)), .destroyed] [invalidSocket, descriptor]
      (opening descriptor m.process)
    refine .opens descriptor (m.process.infos.length + 1) hInvalid (Nat.le_succ _) ?_ (fun info => ?_) rfl rfl
      (fun handle info h => ?_) (fun handle info h => ⟨handle, ?_⟩) ⟨m.process.handles.length, ?_⟩
    · rw [hTwo]
      exact Nat.lt_succ_self _
    · have hOpening : (opening descriptor m.process).descriptor info = m.process.descriptor info := rfl
      rw [descriptor_grown, opening_infos, hOpening]
      split_ifs with hOld hNew hNew
      · omega
      · rfl
      · rw [hNew, Nat.add_sub_cancel_left]
        rfl
      · rw [descriptor_of_le (by omega)]
        obtain hZero | ⟨j, hMore⟩ : info - m.process.infos.length = 0 ∨
            ∃ j, info - m.process.infos.length = j + 2 := by
          rcases Nat.lt_or_ge (info - m.process.infos.length) 2 with h | h
          · exact .inl (by omega)
          · exact .inr ⟨info - m.process.infos.length - 2, by omega⟩
        · rw [hZero]
          rfl
        · rw [hMore]
          rfl
    · rcases info_grown_cases h with hOld | hNew
      · exact .inr ⟨handle, hOld⟩
      · exact .inl (by simpa using hNew)
    · exact @info_grown_held info (opening descriptor m.process) handle h _ _
    · exact @grown_info_add (opening descriptor m.process)
        [.live (some (m.process.infos.length + 1)), .destroyed] [invalidSocket, descriptor] 0

/-- A copy opens and closes nothing. -/
theorem effect_copyConstruct {raw : RawSocket} (hLive : m.process.Live raw.socket) (source : Nat) :
    Effect m (.copyConstruct source) (copyConstruct raw m).1 := by
  cases hInfo : m.process.info raw.socket with
  | none =>
      rw [copyConstruct_null hLive hInfo]
      exact .keep (by simp) rfl (Nat.le_refl _) (fun _ => rfl) rfl rfl (fun handle _ h => ⟨handle, h⟩)
        fun handle _ h _ => ⟨handle, h⟩
  | some shared =>
      rw [copyConstruct_some hInfo]
      refine .keep (by simp) rfl (by simp [grown]) (fun info => ?_) rfl rfl (fun handle info h => ?_)
        fun handle info h _ => ⟨handle, info_grown_held h _ _⟩
      · rw [descriptor_grown]
        split_ifs with hOld
        · rfl
        · rw [descriptor_of_le (by omega)]
          rfl
      · rcases info_grown_cases h with hOld | hNew
        · exact ⟨handle, hOld⟩
        · obtain rfl : info = shared := by simpa using hNew
          exact ⟨raw.socket, hInfo⟩

/-- A record that has more than one handle keeps one. -/
theorem exists_other {handle : Nat} (h : s.info handle = some info) (hShared : s.useCount info ≠ 1) :
    ∃ other, other ≠ handle ∧ s.info other = some info := by
  by_contra hNone
  simp only [not_exists, not_and] at hNone
  have hBound := Process.lt_of_info h
  obtain ⟨_, hGet⟩ := List.getElem?_eq_some_iff.mp (Process.info_eq_some.mp h)
  have hZero : (s.setInfo handle none).useCount info = 0 := by
    refine Process.useCount_eq_zero.mpr fun other hOther => ?_
    by_cases hEq : handle = other
    · subst hEq
      rw [Process.setInfo_info_self hBound] at hOther
      cases hOther
    · rw [Process.setInfo_info_of_ne hEq] at hOther
      exact hNone other (Ne.symm hEq) hOther
  have hPositive := Process.useCount_pos h
  rw [Process.useCount] at hPositive hShared
  rw [Process.useCount, Process.setInfo, List.count_set hBound, hGet] at hZero
  simp only [beq_self_eq_true, if_true] at hZero
  omega

/-- An assignment may close the record of its target, as the last handle of it. -/
theorem effect_copyAssign (consistent : Consistent m.process) {k source : Nat} (target raw : RawSocket) :
    Effect m (.copyAssign k source) (copyAssign k target raw m).1 := by
  have takes := copy_takesFrom raw.socket
  have inherits := @inherits_assignBy m.process raw.socket _ takes target.socket
  by_cases hLast : ∃ info, m.process.info target.socket = some info ∧ m.process.useCount info = 1
  · obtain ⟨info, hInfo, hLast⟩ := hLast
    have hResult := assignBy_last consistent hInfo hLast (copy raw.socket)
    have hOthers (handle other : Nat) (h : m.process.info handle = some other) (hNe : other ≠ info) :
        (assignBy (copy raw.socket) target.socket m.process).1.info handle = some other := by
      rw [assignBy_info_of_ne consistent raw.socket, h]
      rintro rfl
      rw [hInfo] at h
      exact hNe (Option.some.inj h).symm
    have hInfos := takes.infos target.socket (released target.socket info m.process)
    have hOpened := takes.opened target.socket (released target.socket info m.process)
    have hCloses := takes.closes target.socket (released target.socket info m.process)
    by_cases hValid : m.process.descriptor info = invalidSocket
    · rw [released, if_pos hValid] at hInfos hOpened hCloses
      refine .keep (by simp) rfl (Nat.le_of_eq inherits.infos.symm) (fun other => ?_) ?_ ?_ inherits.handles
        fun handle other h hOther => ⟨handle, hOthers handle other h ?_⟩
      · dsimp only [copyAssign]
        rw [hResult, released, if_pos hValid, Process.descriptor, hInfos]
        rfl
      · dsimp only [copyAssign]
        rw [hResult, released, if_pos hValid, hOpened]
        rfl
      · dsimp only [copyAssign]
        rw [hResult, released, if_pos hValid, hCloses]
        rfl
      · rintro rfl
        exact hOther hValid
    · rw [released, if_neg hValid] at hInfos hOpened hCloses
      refine .closes info hValid (.inr ⟨by simp, fun handle h => ?_⟩) rfl ?_ ?_ ?_ inherits.handles
        fun handle other h hOther => ⟨handle, hOthers handle other h hOther⟩
      · dsimp only [copyAssign] at h
        rw [hResult] at h
        have hGone := Process.useCount_eq_zero.mp (released_useCount hInfo hLast)
        rcases takes.others target.socket _ handle info h with hSource | hHandle
        · exact hGone _ hSource
        · exact hGone _ hHandle
      · dsimp only [copyAssign]
        rw [hResult, released, if_neg hValid, hInfos]
        rfl
      · dsimp only [copyAssign]
        rw [hResult, released, if_neg hValid, hOpened]
        rfl
      · dsimp only [copyAssign]
        rw [hResult, released, if_neg hValid, hCloses]
        rfl
  · simp only [not_exists, not_and] at hLast
    have hResult := assignBy_shared hLast (copy raw.socket)
    refine .keep (by simp) rfl (Nat.le_of_eq inherits.infos.symm) (fun info => ?_) ?_ ?_ inherits.handles
      fun handle info h _ => ?_
    · dsimp only [copyAssign]
      rw [hResult, Process.descriptor, takes.infos, ← Process.descriptor]
    · dsimp only [copyAssign]
      rw [hResult, takes.opened]
    · dsimp only [copyAssign]
      rw [hResult, takes.closes]
    · by_cases hEq : handle = target.socket
      · subst hEq
        obtain ⟨other, hNe, hOther⟩ := exists_other h (hLast info h)
        refine ⟨other, ?_⟩
        dsimp only [copyAssign]
        rw [assignBy_info_of_ne consistent raw.socket hNe, hOther]
      · refine ⟨handle, ?_⟩
        dsimp only [copyAssign]
        rw [assignBy_info_of_ne consistent raw.socket hEq, h]

/-- The destructor closes the record, whoever shares it. -/
theorem effect_destroy (consistent : Consistent m.process) {k : Nat} {raw : RawSocket} (hRaw : m.object k = some raw) :
    Effect m (.destroy k) (destroy k raw m) := by
  have hInfo := @info_destroyed m.process _ raw.socket (destroy_handles consistent raw.socket)
  have hRecord := record_of_object hRaw
  have hTaken (handle info : Nat) (h : (destroy k raw m).process.info handle = some info) :
      ∃ other, m.process.info other = some info := by
    refine ⟨handle, ?_⟩
    rw [destroy, hInfo] at h
    split_ifs at h
    exact h
  have hHeld (handle other : Nat) (h : m.process.info handle = some other) (hNe : m.record k ≠ some other) :
      ∃ handle, (destroy k raw m).process.info handle = some other := by
    refine ⟨handle, ?_⟩
    rw [destroy, hInfo, if_neg, h]
    rintro rfl
    exact hNe (hRecord.trans h)
  by_cases h : ∃ info, m.process.info raw.socket = some info ∧ m.process.descriptor info ≠ invalidSocket
  · obtain ⟨info, hSocket, hValid⟩ := h
    have hResult := destroy_closing consistent hSocket hValid
    refine .closes info hValid (.inl ⟨k, rfl, hRecord.trans hSocket⟩) rfl ?_ ?_ ?_ hTaken fun handle other h hNe => ?_
    · rw [destroy, hResult, closed]
    · rw [destroy, hResult, closed]
    · rw [destroy, hResult, closed]
    · refine hHeld handle other h fun hEq => hNe ?_
      rw [hRecord, hSocket] at hEq
      exact (Option.some.inj hEq).symm
  · simp only [not_exists, not_and, not_not] at h
    have hResult := destroy_shut consistent h
    refine .keep (fun x info hAction hInfo => ?_) rfl ?_ (fun info => ?_) ?_ ?_ hTaken
      fun handle other hOther hValid => ?_
    · obtain rfl : k = x := by simpa using hAction
      exact h info (hRecord.symm.trans hInfo)
    · rw [destroy, hResult]
    · rw [destroy, hResult]
      rfl
    · rw [destroy, hResult]
    · rw [destroy, hResult]
    · exact hHeld handle other hOther fun hEq => hValid (h other (hRecord.symm.trans hEq))

/-- Every operation has one of the effects above. -/
theorem effect_of_step (wellFormed : WellFormed m) (consistent : Consistent m.process)
    (referenced : Referenced m.process) (h : step m action = some n) : Effect m action n := by
  obtain ⟨⟨next, error⟩, hPerform, rfl⟩ := Option.map_eq_some_iff.mp h
  dsimp only
  cases action with
  | construct descriptor =>
      obtain ⟨_, hResult⟩ := Option.ite_none_right_eq_some.mp hPerform
      obtain rfl := congrArg Prod.fst (Option.some.inj hResult)
      exact effect_construct referenced descriptor
  | copyConstruct source =>
      obtain ⟨raw, hRaw, hResult⟩ := Option.map_eq_some_iff.mp hPerform
      obtain rfl := congrArg Prod.fst hResult
      exact effect_copyConstruct (wellFormed.live source _ (socket_of_object hRaw)) source
  | copyAssign k source =>
      cases hTarget : m.object k with
      | none => simp [perform, hTarget] at hPerform
      | some target =>
          cases hSource : m.object source with
          | none => simp [perform, hTarget, hSource] at hPerform
          | some raw =>
              simp only [perform, hTarget, hSource, Option.some.injEq] at hPerform
              obtain rfl := congrArg Prod.fst hPerform
              exact effect_copyAssign consistent target raw
  | attach k name found =>
      obtain ⟨raw, hRaw, hResult⟩ := Option.map_eq_some_iff.mp hPerform
      obtain rfl := congrArg Prod.fst hResult
      exact .keep (by simp) rfl (Nat.le_refl _) (fun _ => rfl) rfl rfl (fun handle _ h => ⟨handle, h⟩)
        fun handle _ h _ => ⟨handle, h⟩
  | destroy k =>
      obtain ⟨raw, hRaw, hResult⟩ := Option.map_eq_some_iff.mp hPerform
      obtain rfl := congrArg Prod.fst hResult
      exact effect_destroy consistent hRaw

/-! ### Runs -/

/-- What holds of the records and the descriptors after a history. -/
structure Sharing (actions : List Action) (m : Program) : Prop where
  bound : ∀ info, Shut actions info → info < m.process.infos.length
  shut : ∀ handle info, m.process.info handle = some info →
    (m.process.descriptor info = invalidSocket ↔ Shut actions info)
  held : ∀ descriptor ∈ m.process.opened, ∃ handle info,
    m.process.info handle = some info ∧ m.process.descriptor info = descriptor
  balanced : ∀ descriptor,
    m.process.closes.count descriptor + m.process.opened.count descriptor = (handedOut actions).count descriptor

theorem handedOut_concat (actions : List Action) (action : Action) :
    handedOut (actions ++ [action]) = handedOut actions ++ handedOut [action] := List.filterMap_append

/-- The record of a raw socket is one of a handle. -/
theorem info_of_record {k : Nat} (h : m.record k = some info) : ∃ handle, m.process.info handle = some info := by
  obtain ⟨handle, -, hInfo⟩ := Option.bind_eq_some_iff.mp h
  exact ⟨handle, hInfo⟩

/-- What holds after a history holds after one more operation. -/
theorem Sharing.step (run : Runs step init actions m) (consistent : Consistent m.process)
    (referenced : Referenced m.process) (sharing : Sharing actions m) (effect : Effect m action n) :
    Sharing (actions ++ [action]) n := by
  have hShut (info : Nat) := @shut_concat m actions action info run
  cases effect with
  | keep hDestroy hHandedOut hInfos hDescriptor hOpened hCloses hTaken hHeld =>
      have hSame (info : Nat) : Shut (actions ++ [action]) info ↔ Shut actions info := by
        refine (hShut info).trans (or_iff_left_of_imp ?_)
        rintro ⟨k, hAction, hRecord⟩
        obtain ⟨handle, hInfo⟩ := info_of_record hRecord
        exact (sharing.shut handle info hInfo).mp (hDestroy k info hAction hRecord)
      refine ⟨fun info h => ?_, fun handle info h => ?_, fun descriptor h => ?_, fun descriptor => ?_⟩
      · exact Nat.lt_of_lt_of_le (sharing.bound info ((hSame info).mp h)) hInfos
      · obtain ⟨other, hOther⟩ := hTaken handle info h
        rw [hDescriptor, hSame]
        exact sharing.shut other info hOther
      · rw [hOpened] at h
        obtain ⟨handle, info, hInfo, rfl⟩ := sharing.held descriptor h
        obtain ⟨other, hOther⟩ := hHeld handle info hInfo fun hInvalid => consistent.valid (hInvalid ▸ h)
        exact ⟨other, info, hOther, hDescriptor info⟩
      · rw [handedOut_concat, hHandedOut, List.append_nil, hCloses, hOpened, sharing.balanced]
  | opens descriptor new hValid hNew hBound hDescriptor hOpened hCloses hTaken hHeld hMine =>
      have hSame (info : Nat) : Shut (actions ++ [.construct descriptor]) info ↔ Shut actions info := by
        refine (hShut info).trans (or_iff_left ?_)
        rintro ⟨k, hAction, -⟩
        cases hAction
      have hOld (info : Nat) (h : info < m.process.infos.length) :
          n.process.descriptor info = m.process.descriptor info := by
        rw [hDescriptor, if_neg (by omega)]
      refine ⟨fun info h => ?_, fun handle info h => ?_, fun other h => ?_, fun other => ?_⟩
      · have hLive := sharing.bound info ((hSame info).mp h)
        omega
      · rw [hSame]
        rcases hTaken handle info h with rfl | ⟨other, hOther⟩
        · rw [hDescriptor, if_pos rfl]
          exact iff_of_false hValid fun hNever => absurd (sharing.bound _ hNever) (Nat.not_lt.mpr hNew)
        · rw [hOld info (referenced other info hOther)]
          exact sharing.shut other info hOther
      · rw [hOpened, List.mem_append, List.mem_singleton] at h
        rcases h with h | rfl
        · obtain ⟨handle, info, hInfo, rfl⟩ := sharing.held other h
          obtain ⟨handle', hHandle⟩ := hHeld handle info hInfo
          exact ⟨handle', info, hHandle, hOld info (referenced handle info hInfo)⟩
        · obtain ⟨handle, hHandle⟩ := hMine
          exact ⟨handle, new, hHandle, by rw [hDescriptor, if_pos rfl]⟩
      · have hLast : handedOut [.construct descriptor] = [descriptor] := by simp [handedOut, hValid]
        rw [handedOut_concat, hLast, hCloses, hOpened, List.count_append, List.count_append, ← sharing.balanced]
        omega
  | closes info hValid hAction hHandedOut hInfos hOpened hCloses hTaken hHeld =>
      have hBound := lt_of_descriptor hValid
      have hDescriptor (other : Nat) : n.process.descriptor other =
          if other = info then invalidSocket else m.process.descriptor other := by
        have hSet := @Process.setDescriptor_descriptor m.process info other invalidSocket
        simp only [hBound, and_true, eq_comm (a := info)] at hSet
        rw [← hSet, Process.descriptor, hInfos]
        rfl
      refine ⟨fun other h => ?_, fun handle other h => ?_, fun descriptor h => ?_, fun descriptor => ?_⟩
      · rw [hInfos, List.length_set]
        rcases (hShut other).mp h with h | ⟨k, -, hRecord⟩
        · exact sharing.bound other h
        · obtain ⟨handle, hInfo⟩ := info_of_record hRecord
          exact referenced handle other hInfo
      · obtain ⟨old, hOld⟩ := hTaken handle other h
        rw [hDescriptor, hShut]
        rcases hAction with ⟨k, rfl, hRecord⟩ | ⟨hNot, hGone⟩
        · split_ifs with hEq
          · subst hEq
            exact iff_of_true rfl (.inr ⟨k, rfl, hRecord⟩)
          · rw [or_iff_left, sharing.shut old other hOld]
            rintro ⟨x, hx, hRecordX⟩
            obtain rfl : k = x := by simpa using hx
            rw [hRecord] at hRecordX
            exact hEq (Option.some.inj hRecordX).symm
        · rw [if_neg (by rintro rfl; exact hGone handle h), or_iff_left, sharing.shut old other hOld]
          rintro ⟨x, hx, -⟩
          exact hNot x hx
      · rw [hOpened, consistent.nodup.mem_erase_iff] at h
        obtain ⟨handle, other, hOther, rfl⟩ := sharing.held descriptor h.2
        have hNe : other ≠ info := by
          rintro rfl
          exact h.1 rfl
        obtain ⟨handle', hHandle⟩ := hHeld handle other hOther hNe
        exact ⟨handle', other, hHandle, by rw [hDescriptor, if_neg hNe]⟩
      · have hBefore := sharing.balanced descriptor
        have hMem := List.count_pos_iff.mpr (consistent.opened info hValid)
        rw [handedOut_concat, hHandedOut, List.append_nil, hOpened, hCloses, List.count_append, List.count_erase,
          List.count_singleton]
        by_cases hEq : m.process.descriptor info = descriptor
        · subst hEq
          simp only [beq_self_eq_true, if_true]
          omega
        · simp only [beq_eq_false_iff_ne.mpr hEq, Bool.false_eq_true, if_false]
          omega

/-- What holds of records and descriptors after a history holds after every run. -/
theorem sharing_of_runs (run : Runs step init actions m) : Sharing actions m := by
  have hInit : Sharing [] init := by
    refine ⟨fun info h => ?_, fun handle info h => ?_, fun descriptor h => ?_, fun descriptor => rfl⟩
    · obtain ⟨before, k, _, hPrefix, -⟩ := h
      simp at hPrefix
    · simp [init, BasicSocket.init, Process.info] at h
    · cases h
  refine run.history hInit fun actions action m n prior sharing h => ?_
  obtain ⟨wellFormed, runSockets⟩ := simulate prior
  have consistent := consistent_of_runs runSockets
  have referenced := referenced_of_runs runSockets
  exact sharing.step prior consistent referenced (effect_of_step wellFormed consistent referenced h)

/-- In every run, a raw socket has an open descriptor until the first of those that share
it is destroyed, and none from then on. -/
theorem opened_iff (run : Runs step init actions m) {k : Nat} (h : m.record k = some info) :
    m.process.descriptor info ∈ m.process.opened ↔ ¬Shut actions info := by
  obtain ⟨-, runSockets⟩ := simulate run
  have consistent := consistent_of_runs runSockets
  obtain ⟨handle, hInfo⟩ := info_of_record h
  rw [← (sharing_of_runs run).shut handle info hInfo]
  exact ⟨fun hOpen hInvalid => consistent.valid (hInvalid ▸ hOpen), consistent.opened info⟩

/-- A raw socket is copied, and the copy is destroyed. -/
def copied : List Action := [.construct 3, .copyConstruct 0, .attach 1 "eth0" true, .destroy 1]

def leftBehind : Program := ⟨⟨[.live (some 1), .destroyed, .destroyed], [-1, -1], [], [3]⟩, [some ⟨0, ""⟩, none]⟩

theorem runs_copied : Runs step init copied leftBehind := runs_iff_foldlM.mpr rfl

/-- A copy whose original is destroyed. -/
theorem opened_iff_copied :
    leftBehind.process.descriptor 1 ∈ leftBehind.process.opened ↔ ¬Shut copied 1 :=
  @opened_iff leftBehind copied 1 runs_copied 0 rfl

/-- In every run, each descriptor that has been handed out has been closed once, or is open
and belongs to a raw socket that has not been destroyed. -/
theorem nothing_leaked (run : Runs step init actions m) :
    (∀ descriptor, m.process.closes.count descriptor + m.process.opened.count descriptor =
      (handedOut actions).count descriptor) ∧
    ∀ descriptor ∈ m.process.opened, ∃ k info, m.record k = some info ∧ m.process.descriptor info = descriptor := by
  have sharing := sharing_of_runs run
  refine ⟨sharing.balanced, fun descriptor h => ?_⟩
  obtain ⟨handle, info, hInfo, hDescriptor⟩ := sharing.held descriptor h
  obtain ⟨k, hSocket⟩ := (simulate run).1.owner handle info hInfo
  refine ⟨k, info, ?_, hDescriptor⟩
  rw [Program.record, hSocket]
  exact hInfo

/-- The history of `copied`, by its counts. -/
theorem nothing_leaked_copied :
    (∀ descriptor, leftBehind.process.closes.count descriptor + leftBehind.process.opened.count descriptor =
      (handedOut copied).count descriptor) ∧
    ∀ descriptor ∈ leftBehind.process.opened,
      ∃ k info, leftBehind.record k = some info ∧ leftBehind.process.descriptor info = descriptor :=
  nothing_leaked runs_copied

end ImpactSockets.RawSockets
