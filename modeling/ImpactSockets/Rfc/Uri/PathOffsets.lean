import ImpactSockets.Rfc.Uri.SegmentStack

/-! Whether the offsets in `dir` are offsets of the output buffer. -/
namespace ImpactSockets.Uri

open Ascii SegmentStack

/-- The offsets increase, `dir` having the last one first, and each is the
position behind a slash of the output. -/
structure OffsetsSound (st : NormalizeState) : Prop where
  increasing : st.dir.Pairwise (· > ·)
  behind_slash : ∀ i ∈ st.dir, 0 < i ∧ i ≤ st.output.length ∧ st.output[i.toNat - 1]? = some slash

/-- At every slash that `_S_path_normalize` processes the offsets are sound, and
nothing is erased from beyond the end of the output. -/
def SoundThroughout (path : Bytes) : Prop :=
  ∀ before after st, path = before ++ slash :: after → before.foldlM normalizeStep ⟨[], [], 0⟩ = .ok st →
    OffsetsSound st ∧ ∃ next, normalizeStep st slash = .ok next

/-- A slash at this point leaves an offset that is not behind a slash of the
output: ".." removes the only segment that is kept, or the output is longer than
an `int` can tell. -/
def LeavesStale (stack : SegmentStack) : Prop :=
  (stack.dots = 2 ∧ ∃ segment, stack.segments = [segment] ∧ segment ≠ []) ∨
    (stack.dots = 0 ∧ 2 ^ 31 ≤ stack.output.length + 1)

/-! ### Stacks that offsets are right for -/

theorem offsets_sound {segments : List Bytes} (h : (written segments).length < 2 ^ 31) :
    (offsets segments).Pairwise (· > ·) ∧ ∀ i ∈ offsets segments, 0 < i ∧ i ≤ (written segments).length ∧
      (written segments)[i.toNat - 1]? = some slash := by
  induction segments with
  | nil => exact ⟨List.Pairwise.nil, by simp [offsets]⟩
  | cons segment rest ih =>
      have hLength : (written (segment :: rest)).length = (written rest).length + segment.length + 1 := by
        simp [written, Nat.add_assoc]
      have hOffset := (intOffset_eq_iff _).mpr h
      obtain ⟨hIncreasing, hBehind⟩ := ih (by omega)
      rw [offsets, hOffset]
      constructor
      · apply List.pairwise_cons.mpr
        refine ⟨?_, hIncreasing⟩
        intro i hi
        have hLe := (hBehind i hi).2.1
        omega
      · intro i hi
        rcases List.mem_cons.mp hi with rfl | hi
        · refine ⟨by omega, Int.le_refl _, ?_⟩
          rw [Int.toNat_natCast, ← List.getLast?_eq_getElem?, written, ← List.append_assoc, List.getLast?_concat]
        · obtain ⟨hPositive, hLe, hSlash⟩ := hBehind i hi
          refine ⟨hPositive, by omega, ?_⟩
          rw [written, List.getElem?_append_left (by omega)]
          exact hSlash

theorem sound_of_represents {st : NormalizeState} {stack : SegmentStack} (h : Represents [] st stack)
    (hShort : (written stack.segments).length < 2 ^ 31) : OffsetsSound st := by
  obtain ⟨hIncreasing, hBehind⟩ := offsets_sound hShort
  have hDir : st.dir = offsets stack.segments := by rw [h.dir, List.append_nil]
  constructor
  · rw [hDir]
    exact hIncreasing
  · intro i hi
    obtain ⟨hPositive, hLe, hSlash⟩ := hBehind i (hDir ▸ hi)
    rw [h.output, SegmentStack.output, List.length_append, List.getElem?_append_left (by omega)]
    exact ⟨hPositive, by omega, hSlash⟩

/-- What is erased begins at an offset of the output. -/
theorem slash_of_sound {st : NormalizeState} (h : OffsetsSound st) : ∃ next, normalizeStep st slash = .ok next := by
  by_cases hTwo : st.dots = 2
  · rw [normalizeStep_pop hTwo]
    unfold popSegment
    split
    · next last i rest hDir =>
      have hMem : i ∈ st.dir := by simp [hDir]
      obtain ⟨hPositive, hLe, _⟩ := h.behind_slash i hMem
      rw [if_pos ⟨by omega, hLe⟩]
      exact ⟨_, rfl⟩
    · split_ifs
      · exact ⟨_, rfl⟩
      · exact ⟨_, rfl⟩
  · rw [normalizeStep, if_neg (by decide), if_pos (by decide)]
    split_ifs
    · exact ⟨_, rfl⟩
    · exact ⟨_, rfl⟩
    · exact ⟨_, rfl⟩

/-- One slash that leaves no stale offset. -/
theorem represents_slash {st : NormalizeState} {stack : SegmentStack} (h : Represents [] st stack)
    (hShort : (written stack.segments).length < 2 ^ 31) (hNot : ¬LeavesStale stack) :
    ∃ next, normalizeStep st slash = .ok next ∧ Represents [] next stack.endSegment ∧
      (written stack.endSegment.segments).length < 2 ^ 31 := by
  by_cases hTwo : stack.dots = 2
  · have hSegments : stack.endSegment.segments = pop stack.segments := by
      rw [endSegment, if_neg (by omega), if_pos hTwo]
    rw [hSegments]
    rcases hCase : stack.segments with _ | ⟨last, _ | ⟨following, rest⟩⟩
    · obtain ⟨next, hNext, hRep⟩ := h.pop_none hTwo hCase (by simp)
      exact ⟨next, hNext, hRep, by decide⟩
    · have hNil : last = [] := by
        by_contra hNe
        exact hNot (.inl ⟨hTwo, last, hCase, hNe⟩)
      subst hNil
      obtain ⟨next, hNext, hRep⟩ := h.pop_root hTwo hCase
      exact ⟨next, hNext, hRep, by decide⟩
    · rw [hCase, written, List.length_append] at hShort
      have hRest : (written (following :: rest)).length < 2 ^ 31 := by omega
      obtain ⟨next, hNext, hRep⟩ := h.pop_last hTwo hCase hRest
      exact ⟨next, hNext, hRep, hRest⟩
  · obtain ⟨next, hNext, hRep⟩ := h.slash hTwo
    refine ⟨next, hNext, hRep, ?_⟩
    unfold endSegment
    by_cases hZero : stack.dots = 0
    · have hLength : ¬2 ^ 31 ≤ stack.output.length + 1 := fun hLong => hNot (.inr ⟨hZero, hLong⟩)
      rw [if_pos hZero]
      simp only [SegmentStack.output, List.length_append] at hLength
      simp only [written, List.length_append, List.length_singleton]
      omega
    · rw [if_neg hZero, if_neg hTwo]
      split_ifs
      · exact hShort
      · exact hShort

/-- The locals after a text none of whose slashes leaves a stale offset. -/
theorem represents_read {text : Bytes}
    (h : ∀ before after, text = before ++ slash :: after → ¬LeavesStale (read before)) :
    ∃ st, text.foldlM normalizeStep ⟨[], [], 0⟩ = .ok st ∧ Represents [] st (read text) ∧
      (written (read text).segments).length < 2 ^ 31 := by
  induction text using List.reverseRecOn with
  | nil => exact ⟨_, rfl, represents_empty, by decide⟩
  | append_singleton text c ih =>
      obtain ⟨st, hRun, hRep, hShort⟩ := ih fun before after hEq => h before (after ++ [c]) (by simp [hEq])
      have hFold {next : NormalizeState} (hNext : normalizeStep st c = .ok next) :
          (text ++ [c]).foldlM normalizeStep ⟨[], [], 0⟩ = .ok next := by
        simp only [List.foldlM_append, hRun, List.foldlM_cons, List.foldlM_nil, bind, Except.bind, hNext]
        rfl
      rw [read_concat]
      by_cases hDot : c = dot
      · subst hDot
        obtain ⟨next, hNext, hRepNext⟩ := hRep.dot
        exact ⟨next, hFold hNext, hRepNext, hShort⟩
      by_cases hSlash : c = slash
      · subst hSlash
        obtain ⟨next, hNext, hRepNext, hShortNext⟩ := represents_slash hRep hShort (h text [] rfl)
        exact ⟨next, hFold hNext, hRepNext, hShortNext⟩
      · obtain ⟨next, hNext, hRepNext⟩ := hRep.write hDot hSlash
        refine ⟨next, hFold hNext, hRepNext, ?_⟩
        rw [step, if_neg hDot, dif_neg hSlash]
        exact hShort

/-! ### Stacks that an offset is wrong for -/

/-- An offset of a segment that has been removed. -/
theorem not_sound_of_stale {st : NormalizeState} {stack : SegmentStack} {i : Int} (h : Represents [i] st stack)
    (hSegments : stack.segments = []) : ¬OffsetsSound st := by
  intro hSound
  obtain ⟨_, _, hSlash⟩ := hSound.behind_slash i (by simp [h.dir])
  rw [h.output, SegmentStack.output, hSegments] at hSlash
  exact stack.tail_slash (List.mem_of_getElem? hSlash)

theorem slash_index {front back : Bytes} (hFront : slash ∉ front) (hBack : slash ∉ back) {n : Nat}
    (h : (front ++ slash :: back)[n]? = some slash) : n = front.length := by
  rcases Nat.lt_trichotomy n front.length with hLt | hEq | hGt
  · rw [List.getElem?_append_left hLt] at h
    exact absurd (List.mem_of_getElem? h) hFront
  · exact hEq
  · obtain ⟨k, rfl⟩ := Nat.exists_eq_add_of_lt hGt
    rw [List.getElem?_append_right (by omega), show front.length + k + 1 - front.length = k + 1 by omega,
      List.getElem?_cons_succ] at h
    exact absurd (List.mem_of_getElem? h) hBack

/-- An offset that is too large for an `int`. -/
theorem not_sound_of_long {st : NormalizeState} {stack : SegmentStack} (h : Represents [] st stack) {segment : Bytes}
    {rest : List Bytes} (hSegments : stack.segments = segment :: rest) (hShort : (written rest).length < 2 ^ 31)
    (hLong : 2 ^ 31 ≤ (written (segment :: rest)).length) : ¬OffsetsSound st := by
  intro hSound
  obtain ⟨i, hi⟩ : ∃ i, i = intOffset (written (segment :: rest)).length := ⟨_, rfl⟩
  have hDir : st.dir = i :: offsets rest := by rw [h.dir, hSegments, List.append_nil, offsets, hi]
  have hWrong : i ≠ (written (segment :: rest)).length := by
    rw [hi]
    exact (intOffset_eq_iff _).not.mpr (by omega)
  obtain ⟨hPositive, hLe, hSlash⟩ := hSound.behind_slash i (by simp [hDir])
  have hBehind : ((written rest).length : Int) < i := by
    cases rest with
    | nil => exact hPositive
    | cons next rest =>
        have hIncreasing := hSound.increasing
        rw [hDir, offsets, (intOffset_eq_iff _).mpr hShort] at hIncreasing
        exact List.rel_of_pairwise_cons hIncreasing List.mem_cons_self
  have hOutput : st.output = written rest ++ (segment ++ slash :: stack.tail) := by
    rw [h.output, SegmentStack.output, hSegments, written]
    simp
  rw [hOutput, List.getElem?_append_right (by omega)] at hSlash
  have hIndex := slash_index (stack.segments_slash segment (by simp [hSegments])) stack.tail_slash hSlash
  have hLength : (written (segment :: rest)).length = (written rest).length + segment.length + 1 := by
    simp [written, Nat.add_assoc]
  omega

/-- Up to the next slash after one that leaves a stale offset. -/
theorem not_sound_behind {st : NormalizeState} {stack : SegmentStack} (h : Represents [] st stack)
    (hShort : (written stack.segments).length < 2 ^ 31) (hLeaves : LeavesStale stack) {text : Bytes}
    (hText : slash ∉ text) : ∃ last, (slash :: text).foldlM normalizeStep st = .ok last ∧ ¬OffsetsSound last := by
  have hFold {next last : NormalizeState} (hNext : normalizeStep st slash = .ok next)
      (hLast : text.foldlM normalizeStep next = .ok last) : (slash :: text).foldlM normalizeStep st = .ok last := by
    simp only [List.foldlM_cons, hNext, bind, Except.bind, hLast]
  rcases hLeaves with ⟨hTwo, segment, hSegments, hNe⟩ | ⟨hZero, hLong⟩
  · obtain ⟨next, hNext, hRep⟩ := h.pop_only hTwo hSegments hNe
    obtain ⟨last, hLast, hRepLast, hSame⟩ := represents_plain hRep hText
    refine ⟨last, hFold hNext hLast, not_sound_of_stale hRepLast ?_⟩
    rw [hSame, endSegment, if_neg (by omega), if_pos hTwo]
    simp [hSegments, pop, hNe]
  · obtain ⟨next, hNext, hRep⟩ := h.slash (by omega)
    obtain ⟨last, hLast, hRepLast, hSame⟩ := represents_plain hRep hText
    refine ⟨last, hFold hNext hLast, @not_sound_of_long _ _ hRepLast stack.tail stack.segments ?_ hShort ?_⟩
    · rw [hSame, endSegment, if_pos hZero]
    · simp only [SegmentStack.output, List.length_append] at hLong
      simp only [written, List.length_append, List.length_singleton]
      omega

/-- The offsets are sound at every slash if and only if no slash that leaves a
stale offset has another slash behind it. -/
theorem soundThroughout_iff (path : Bytes) :
    SoundThroughout path ↔
      ∀ before middle after, path = before ++ slash :: (middle ++ slash :: after) → ¬LeavesStale (read before) := by
  constructor
  · intro h before
    induction hLength : before.length using Nat.strong_induction_on generalizing before with
    | h n ih =>
        intro middle after hPath hLeaves
        have hBefore (front behind : Bytes) (hEq : before = front ++ slash :: behind) : ¬LeavesStale (read front) := by
          refine ih front.length ?_ front rfl behind (middle ++ slash :: after) (by simp [hPath, hEq])
          rw [← hLength, hEq, List.length_append, List.length_cons]
          omega
        obtain ⟨st, hRun, hRep, hShort⟩ := represents_read hBefore
        obtain ⟨text, rest, hSplit, hText⟩ := List.eq_append_cons_of_mem
          (List.mem_append_right middle (@List.mem_cons_self _ slash after))
        have hPlace : path = before ++ slash :: text ++ slash :: rest := by
          rw [hPath, hSplit]
          simp
        obtain ⟨last, hLast, hNot⟩ := not_sound_behind hRep hShort hLeaves hText
        apply hNot
        apply And.left
        apply h (before ++ slash :: text) rest last hPlace
        simp only [List.foldlM_append, hRun, bind, Except.bind, hLast]
  · intro h before after st hPath hRun
    have hBefore (front behind : Bytes) (hEq : before = front ++ slash :: behind) : ¬LeavesStale (read front) :=
      h front behind after (by simp [hPath, hEq])
    obtain ⟨st', hRun', hRep, hShort⟩ := represents_read hBefore
    cases hRun.symm.trans hRun'
    have hSound := sound_of_represents hRep hShort
    exact ⟨hSound, slash_of_sound hSound⟩

/-- The path "aa/../b/../". -/
def staleOffset : Bytes := [0x61, 0x61, slash, dot, dot, slash, 0x62, slash, dot, dot, slash]

/-- The first ".." clears the output and leaves the offset 3. The second one is
to erase from there on an output of two characters. -/
theorem staleOffset_erased : pathNormalize staleOffset = .error .erase ∧ ¬SoundThroughout staleOffset := by
  refine ⟨by decide, ?_⟩
  intro h
  obtain ⟨hSound, _⟩ := h [0x61, 0x61, slash, dot, dot, slash, 0x62] [dot, dot, slash] ⟨[3], [0x62], 0⟩ rfl
    (by decide +kernel)
  exact absurd (hSound.behind_slash 3 (by decide)).2.1 (by decide)

end ImpactSockets.Uri
