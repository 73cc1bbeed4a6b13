import ImpactSockets.Rfc.Uri.SegmentStack

/-! The removal of dot segments, segment by segment. -/
namespace ImpactSockets.Uri

open Ascii SegmentStack

/-- What is kept of a segment that a slash ends: nothing of ".", and nothing of
".." either, which takes the last kept segment with it. -/
def keepSegment (kept : List Bytes) (segment : Bytes) : List Bytes :=
  if segment = [dot] then kept
  else if segment = [dot, dot] then pop kept
  else segment :: kept

/-- The segments kept of those that slashes end, the last one first. -/
def keepSegments (segments : List Bytes) : List Bytes := segments.foldl keepSegment []

/-- The segments that slashes end. -/
def endedSegments (path : Bytes) : List Bytes := (path.splitOn slash).dropLast

/-- What stands behind the last slash. -/
def finalSegment (path : Bytes) : Bytes := (path.splitOn slash).getLastD []

/-- A path without its dot segments. -/
def removeDotSegments (path : Bytes) : Bytes :=
  written (keepSegments (endedSegments path)) ++ finalSegment path

/-! ### Segments of a path -/

theorem written_append (later earlier : List Bytes) : written (later ++ earlier) = written earlier ++ written later := by
  induction later with
  | nil => simp [written]
  | cons segment later ih => simp [written, ih]

/-- A path is its ended segments and the final one. -/
theorem splitOn_segments (path : Bytes) :
    ∃ segments final, path.splitOn slash = segments ++ [final] ∧ path = written segments.reverse ++ final ∧
      (∀ segment ∈ segments, slash ∉ segment) ∧ slash ∉ final := by
  induction hLength : path.length using Nat.strong_induction_on generalizing path with
  | h n ih =>
      by_cases hSlash : slash ∈ path
      · obtain ⟨first, rest, rfl, hFirst⟩ := List.eq_append_cons_of_mem hSlash
        have hRest : rest.length < n := by
          rw [← hLength, List.length_append, List.length_cons]
          omega
        obtain ⟨segments, final, hSplit, hText, hSegments, hFinal⟩ := ih rest.length hRest rest rfl
        refine ⟨first :: segments, final, ?_, ?_, List.forall_mem_cons.mpr ⟨hFirst, hSegments⟩, hFinal⟩
        · rw [List.splitOn_append_cons_self_of_not_mem hFirst, hSplit, List.cons_append]
        · rw [List.reverse_cons, written_append, hText]
          simp [written]
      · exact ⟨[], path, List.splitOn_eq_singleton hSlash, rfl, by simp, hSlash⟩

/-- The path, put together again. -/
theorem endedSegments_text (path : Bytes) : path = written (endedSegments path).reverse ++ finalSegment path := by
  obtain ⟨segments, final, hSplit, hText, _⟩ := splitOn_segments path
  rw [endedSegments, finalSegment, hSplit, List.dropLast_concat, List.getLastD_concat]
  exact hText

theorem endedSegments_slash {path segment : Bytes} (h : segment ∈ endedSegments path) : slash ∉ segment := by
  obtain ⟨segments, final, hSplit, _, hSegments, _⟩ := splitOn_segments path
  rw [endedSegments, hSplit, List.dropLast_concat] at h
  exact hSegments segment h

theorem finalSegment_slash (path : Bytes) : slash ∉ finalSegment path := by
  obtain ⟨segments, final, hSplit, _, _, hFinal⟩ := splitOn_segments path
  rw [finalSegment, hSplit, List.getLastD_concat]
  exact hFinal

/-- Without "//" only the first segment may be empty. -/
theorem empty_first {path : Bytes} (hSingle : SingleSlashed path) {before after : List Bytes}
    (h : endedSegments path = before ++ [] :: after) : before = [] := by
  rcases List.eq_nil_or_concat' before with hNil | ⟨init, last, rfl⟩
  · exact hNil
  · have hText := endedSegments_text path
    rw [h, List.reverse_append, List.reverse_cons, List.reverse_concat, written_append, written_append] at hText
    have hSplit : path = written init.reverse ++ last ++
        slash :: slash :: (written after.reverse ++ finalSegment path) :=
      hText.trans (by simp [written])
    exact (hSingle _ _ hSplit).elim

/-! ### One segment -/

variable {stale : List Int} {st : NormalizeState} {stack : SegmentStack}

/-- What is read of a segment is written or, as far as it ends with dots, pending. -/
theorem plain_text {text : Bytes} (hText : slash ∉ text) (hTail : stack.tail = []) (hDots : stack.dots = 0) :
    (text.foldl step stack).flush.tail = text ∧
      (text.getLast? = some dot ↔ (text.foldl step stack).dots ≠ 0) := by
  induction text using List.reverseRecOn with
  | nil => simp [flush, hTail, hDots]
  | append_singleton text c ih =>
      obtain ⟨hFlush, _⟩ := ih fun hMem => hText (List.mem_append_left _ hMem)
      have hSlash : c ≠ slash := by
        rintro rfl
        exact hText (by simp)
      rw [List.foldl_append, List.foldl_cons, List.foldl_nil, List.getLast?_concat]
      generalize text.foldl step stack = reached at hFlush
      subst hFlush
      by_cases hDot : c = dot
      · subst hDot
        rw [step, if_pos rfl]
        constructor
        · simp [flush, List.replicate_succ']
        · simp
      · rw [step, if_neg hDot, dif_neg hSlash]
        constructor
        · simp [flush, write]
        · simp [write, hDot]

/-- The dots that are pending at the end of a segment are all of it, or there are
none. -/
theorem plain_dots {text : Bytes} (hText : slash ∉ text) (hTail : stack.tail = []) (hDots : stack.dots = 0)
    (hWhole : text.getLast? = some dot → text = [dot] ∨ text = [dot, dot]) :
    (text = [dot] ∧ (text.foldl step stack).dots = 1 ∧ (text.foldl step stack).tail = []) ∨
      (text = [dot, dot] ∧ (text.foldl step stack).dots = 2) ∨
      (text ≠ [dot] ∧ text ≠ [dot, dot] ∧ (text.foldl step stack).dots = 0 ∧ (text.foldl step stack).tail = text) := by
  obtain ⟨hFlush, hLast⟩ := plain_text hText hTail hDots
  by_cases hDot : text.getLast? = some dot
  · rcases hWhole hDot with rfl | rfl
    · left
      simp [step, hDots, hTail]
    · right
      left
      simp [step, hDots]
  · right
    right
    have hZero : (text.foldl step stack).dots = 0 := by
      by_contra hSome
      exact hDot (hLast.mpr hSome)
    refine ⟨?_, ?_, hZero, ?_⟩
    · rintro rfl
      exact hDot rfl
    · rintro rfl
      exact hDot rfl
    · have hTailText := hFlush
      simp only [flush, hZero, List.replicate_zero, List.append_nil] at hTailText
      exact hTailText

/-- What a slash makes of a segment that dots stand in only as a whole. -/
theorem endSegment_plain {text : Bytes} (hText : slash ∉ text) (hTail : stack.tail = []) (hDots : stack.dots = 0)
    (hWhole : text.getLast? = some dot → text = [dot] ∨ text = [dot, dot])
    (hSegments : (text.foldl step stack).segments = stack.segments) :
    (text.foldl step stack).endSegment.segments = keepSegment stack.segments text ∧
      (text.foldl step stack).endSegment.tail = [] ∧ (text.foldl step stack).endSegment.dots = 0 := by
  have hDotsOf := plain_dots hText hTail hDots hWhole
  generalize text.foldl step stack = reached at hSegments hDotsOf ⊢
  unfold endSegment keepSegment
  rcases hDotsOf with ⟨rfl, hOne, hNil⟩ | ⟨rfl, hTwo⟩ | ⟨hDot, hDotDot, hZero, hSame⟩
  · simp [hOne, hNil, hSegments]
  · simp [hTwo, hSegments]
  · simp [hZero, hDot, hDotDot, hSame, hSegments]

/-- A segment and its slash, by what the slash does. -/
theorem represents_segment {stale' : List Int} (h : Represents stale st stack) {text : Bytes} (hText : slash ∉ text)
    (hTail : stack.tail = []) (hDots : stack.dots = 0)
    (hWhole : text.getLast? = some dot → text = [dot] ∨ text = [dot, dot])
    (hSlash : ∀ middle, Represents stale middle (text.foldl step stack) →
      (text.foldl step stack).segments = stack.segments →
      ∃ next, normalizeStep middle slash = .ok next ∧ Represents stale' next (text.foldl step stack).endSegment) :
    ∃ next last, (text ++ [slash]).foldlM normalizeStep st = .ok next ∧ Represents stale' next last ∧
      last.segments = keepSegment stack.segments text ∧ last.tail = [] ∧ last.dots = 0 := by
  obtain ⟨middle, hMiddle, hRep, hSegments⟩ := represents_plain h hText
  obtain ⟨next, hNext, hRepNext⟩ := hSlash middle hRep hSegments
  refine ⟨next, _, ?_, hRepNext, endSegment_plain hText hTail hDots hWhole hSegments⟩
  simp only [List.foldlM_append, hMiddle, List.foldlM_cons, List.foldlM_nil, bind, Except.bind, hNext]
  rfl

/-! ### Kept segments -/

/-- One more segment, kept or removing another. -/
theorem keepSegments_concat (before : List Bytes) (segment : Bytes) :
    keepSegments (before ++ [segment]) = keepSegment (keepSegments before) segment := by
  simp [keepSegments]

/-- Only segments of the path are kept. -/
theorem mem_of_mem_kept {before : List Bytes} {segment : Bytes} (h : segment ∈ keepSegments before) :
    segment ∈ before := by
  induction before using List.reverseRecOn with
  | nil => cases h
  | append_singleton before last ih =>
      rw [keepSegments_concat] at h
      unfold keepSegment at h
      split_ifs at h
      · exact List.mem_append_left _ (ih h)
      · exact List.mem_append_left _ (ih (mem_of_mem_pop h))
      · rcases List.mem_cons.mp h with rfl | h
        · simp
        · exact List.mem_append_left _ (ih h)

theorem pop_root {kept : List Bytes} (h : kept.getLast? = some []) : (pop kept).getLast? = some [] := by
  match kept with
  | [] => exact h
  | [segment] =>
      obtain rfl : segment = [] := Option.some.inj h
      rfl
  | last :: next :: rest => simpa [pop] using h

/-- The slash that a path begins with is never dropped. -/
theorem kept_root {before : List Bytes} (h : before.head? = some []) : (keepSegments before).getLast? = some [] := by
  induction before using List.reverseRecOn with
  | nil => cases h
  | append_singleton before last ih =>
      rw [keepSegments_concat]
      rcases before with _ | ⟨first, before⟩
      · obtain rfl : last = [] := Option.some.inj h
        rfl
      · have hKept := ih h
        unfold keepSegment
        split_ifs
        · exact hKept
        · exact pop_root hKept
        · rw [List.getLast?_cons, hKept]
          rfl

/-- ".." behind these segments would remove the only one that is kept. -/
def Clears (before : List Bytes) : Prop := ∃ segment, keepSegments before = [segment] ∧ segment ≠ []

/-- The paths in which only whole segments are dots that a slash follows, ".."
removes the only segment that is kept at most once, and leaves no more than an
`int` can tell. -/
structure PlainDots (path : Bytes) : Prop where
  whole : ∀ segment ∈ endedSegments path, segment.getLast? = some dot → segment = [dot] ∨ segment = [dot, dot]
  once : ∀ before middle after, endedSegments path = before ++ [dot, dot] :: (middle ++ [dot, dot] :: after) →
    Clears before → ¬Clears (before ++ [dot, dot] :: middle)
  short : ∀ before after last next rest, endedSegments path = before ++ [dot, dot] :: after →
    keepSegments before = last :: next :: rest → (written (next :: rest)).length < 2 ^ 31

/-- The locals after segments of a path. An offset is stale when ".." has removed
the only segment that was kept. -/
structure Progress (before : List Bytes) (stale : List Int) (st : NormalizeState) (stack : SegmentStack) : Prop where
  represents : Represents stale st stack
  segments : stack.segments = keepSegments before
  tail : stack.tail = []
  dots : stack.dots = 0
  cleared : stale = [] ∨ stale.length = 1 ∧ before.head? ≠ some [] ∧
    ∃ front behind, before = front ++ [dot, dot] :: behind ∧ Clears front

theorem Progress.stale_length {before : List Bytes} (h : Progress before stale st stack) : stale.length ≤ 1 := by
  rcases h.cleared with rfl | ⟨hLength, _⟩
  · exact Nat.zero_le 1
  · exact Nat.le_of_eq hLength

theorem Progress.keep_stale {before : List Bytes} (h : Progress before stale st stack) (text : Bytes) :
    stale = [] ∨ stale.length = 1 ∧ (before ++ [text]).head? ≠ some [] ∧
      ∃ front behind, before ++ [text] = front ++ [dot, dot] :: behind ∧ Clears front := by
  rcases h.cleared with hNil | ⟨hLength, hHead, front, behind, rfl, hClears⟩
  · exact .inl hNil
  · refine .inr ⟨hLength, ?_, front, behind ++ [text], by simp, hClears⟩
    rw [List.head?_append_of_ne_nil _ (by simp)]
    exact hHead

/-- What ".." does to the segments kept before it. -/
theorem Progress.pop {before after : List Bytes} (h : Progress before stale st stack) {path : Bytes}
    (hSingle : SingleSlashed path) (hPlain : PlainDots path)
    (hPath : endedSegments path = before ++ [dot, dot] :: after) {middle : NormalizeState} {reached : SegmentStack}
    (hRep : Represents stale middle reached) (hSegments : reached.segments = stack.segments) (hTwo : reached.dots = 2) :
    ∃ stale' next, normalizeStep middle slash = .ok next ∧ Represents stale' next reached.endSegment ∧
      (stale' = [] ∨ stale'.length = 1 ∧ (before ++ [[dot, dot]]).head? ≠ some [] ∧
        ∃ front behind, before ++ [[dot, dot]] = front ++ [dot, dot] :: behind ∧ Clears front) := by
  have hKept : reached.segments = keepSegments before := hSegments.trans h.segments
  match hCase : keepSegments before with
  | [] =>
      obtain ⟨next, hNext, hRepNext⟩ := hRep.pop_none hTwo (hKept.trans hCase) h.stale_length
      exact ⟨stale, next, hNext, hRepNext, h.keep_stale _⟩
  | [segment] =>
      by_cases hNil : segment = []
      · subst hNil
        have hRoot : before.head? = some [] := by
          obtain ⟨front, behind, rfl⟩ := List.append_of_mem (mem_of_mem_kept (hCase ▸ List.mem_singleton_self []))
          rw [List.append_assoc, List.cons_append] at hPath
          rw [empty_first hSingle hPath]
          rfl
        obtain rfl : stale = [] := h.cleared.resolve_right fun hStale => hStale.2.1 hRoot
        obtain ⟨next, hNext, hRepNext⟩ := hRep.pop_root hTwo (hKept.trans hCase)
        exact ⟨[], next, hNext, hRepNext, .inl rfl⟩
      · have hClears : Clears before := ⟨segment, hCase, hNil⟩
        have hStale : stale = [] := by
          apply h.cleared.resolve_right
          rintro ⟨_, _, front, behind, rfl, hFront⟩
          exact hPlain.once front behind after (by simp [hPath]) hFront hClears
        subst hStale
        obtain ⟨next, hNext, hRepNext⟩ := hRep.pop_only hTwo (hKept.trans hCase) hNil
        refine ⟨offsets [segment], next, hNext, hRepNext, .inr ⟨rfl, ?_, before, [], rfl, hClears⟩⟩
        intro hRoot
        rcases before with _ | ⟨first, before⟩
        · cases hCase
        · have hLast := kept_root (show (first :: before).head? = some [] from hRoot)
          rw [hCase] at hLast
          exact hNil (Option.some.inj hLast)
  | last :: following :: rest =>
      obtain ⟨next, hNext, hRepNext⟩ := hRep.pop_last hTwo (hKept.trans hCase)
        (hPlain.short before after last following rest hPath hCase)
      exact ⟨stale, next, hNext, hRepNext, h.keep_stale _⟩

/-- What the loop has done after one more segment and its slash. -/
theorem Progress.segment {before after : List Bytes} {text : Bytes} (h : Progress before stale st stack) {path : Bytes}
    (hSingle : SingleSlashed path) (hPlain : PlainDots path) (hPath : endedSegments path = before ++ text :: after) :
    ∃ stale' next last, (text ++ [slash]).foldlM normalizeStep st = .ok next ∧
      Progress (before ++ [text]) stale' next last := by
  have hMem : text ∈ endedSegments path := by simp [hPath]
  have hText := endedSegments_slash hMem
  have hWhole := hPlain.whole text hMem
  by_cases hDotDot : text = [dot, dot]
  · subst hDotDot
    obtain ⟨middle, hMiddle, hRep, hSegments⟩ := represents_plain h.represents hText
    have hTwo : ([dot, dot].foldl step stack).dots = 2 := by simp [step, h.dots]
    obtain ⟨stale', next, hNext, hRepNext, hCleared⟩ := h.pop hSingle hPlain hPath hRep hSegments hTwo
    obtain ⟨hLast, hTail, hDots⟩ := endSegment_plain hText h.tail h.dots hWhole hSegments
    refine ⟨stale', next, _, ?_, hRepNext, ?_, hTail, hDots, hCleared⟩
    · simp only [List.foldlM_append, hMiddle, bind, Except.bind]
      simp only [List.foldlM_cons, List.foldlM_nil, hNext, bind, Except.bind]
      rfl
    · rw [hLast, keepSegments_concat, h.segments]
  · obtain ⟨next, last, hRun, hRepNext, hLast, hTail, hDots⟩ :=
      represents_segment h.represents hText h.tail h.dots hWhole fun middle hRep _ => by
        apply hRep.slash
        rcases plain_dots hText h.tail h.dots hWhole with ⟨_, hOne, _⟩ | ⟨hTwo, _⟩ | ⟨_, _, hZero, _⟩
        · omega
        · exact absurd hTwo hDotDot
        · omega
    exact ⟨stale, next, last, hRun, hRepNext, by rw [hLast, keepSegments_concat, h.segments], hTail, hDots,
      h.keep_stale text⟩

/-- What the loop has done after all the segments before a place in the path. -/
theorem Progress.run {before after : List Bytes} {path : Bytes} (hSingle : SingleSlashed path)
    (hPlain : PlainDots path) (hPath : endedSegments path = before ++ after) :
    ∃ stale st stack, (written before.reverse).foldlM normalizeStep ⟨[], [], 0⟩ = .ok st ∧
      Progress before stale st stack := by
  induction before using List.reverseRecOn generalizing after with
  | nil => exact ⟨[], _, SegmentStack.empty, rfl, represents_empty, rfl, rfl, rfl, .inl rfl⟩
  | append_singleton before text ih =>
      rw [List.append_assoc, List.singleton_append] at hPath
      obtain ⟨stale, st, stack, hRun, hProgress⟩ := ih hPath
      obtain ⟨stale', next, last, hNext, hLast⟩ := hProgress.segment hSingle hPlain hPath
      refine ⟨stale', next, last, ?_, hLast⟩
      rw [List.reverse_concat, written]
      simp only [List.foldlM_append, hRun, bind, Except.bind] at hNext ⊢
      exact hNext

/-- `_S_path_normalize` removes the dot segments of a path with plain dots. -/
theorem pathNormalize_removeDotSegments {path : Bytes} (hSingle : SingleSlashed path) (hPlain : PlainDots path) :
    pathNormalize path = .ok (removeDotSegments path) := by
  obtain ⟨stale, st, stack, hRun, hProgress⟩ := Progress.run hSingle hPlain (List.append_nil _).symm
  obtain ⟨last, hLast, hRep, hSegments⟩ := represents_plain hProgress.represents (finalSegment_slash path)
  obtain ⟨hTail, _⟩ := plain_text (finalSegment_slash path) hProgress.tail hProgress.dots
  have hFold : path.foldlM normalizeStep ⟨[], [], 0⟩ = .ok last := by
    calc path.foldlM normalizeStep ⟨[], [], 0⟩
        = (written (endedSegments path).reverse ++ finalSegment path).foldlM normalizeStep ⟨[], [], 0⟩ := by
          rw [← endedSegments_text]
      _ = .ok last := by
          simp only [List.foldlM_append, hRun, bind, Except.bind, hLast]
  have hOutput : last.flushDots.output = removeDotSegments path := by
    rw [NormalizeState.flushDots, hRep.output, SegmentStack.output, hRep.dots, hSegments, hProgress.segments,
      List.append_assoc]
    exact congrArg (written (keepSegments (endedSegments path)) ++ ·) hTail
  rw [pathNormalize, hFold]
  exact congrArg Except.ok hOutput

/-- The path "a/../b/c", from which ".." removes the only segment that is kept. -/
def parentPath : Bytes := [0x61, slash, dot, dot, slash, 0x62, slash, 0x63]

theorem parentPath_ended : endedSegments parentPath = [[0x61], [dot, dot], [0x62]] := by decide

theorem parentPath_plainDots : PlainDots parentPath := by
  have hPlace {before after : List Bytes} (h : endedSegments parentPath = before ++ [dot, dot] :: after) :
      before = [[0x61]] ∧ after = [[0x62]] := by
    rw [parentPath_ended] at h
    rcases before with _ | ⟨first, _ | ⟨second, _ | ⟨third, before⟩⟩⟩ <;> simp_all
  constructor
  · rw [parentPath_ended]
    simp
  · intro before middle after h
    obtain ⟨_, hAfter⟩ := hPlace h
    have hMem : [dot, dot] ∈ middle ++ [dot, dot] :: after := by simp
    rw [hAfter] at hMem
    exact absurd hMem (by decide)
  · intro before after last next rest h hKept
    obtain ⟨rfl, _⟩ := hPlace h
    have hOne : keepSegments [[0x61]] = [[0x61]] := by decide
    cases hOne.symm.trans hKept

theorem singleSlashed_nil : SingleSlashed [] := by
  intro before after h
  simp at h

/-- A path with "..", as it is normalized. -/
theorem pathNormalize_parentPath : pathNormalize parentPath = .ok (removeDotSegments parentPath) :=
  pathNormalize_removeDotSegments (by
    simp only [parentPath, singleSlashed_cons, singleSlashed_nil]
    decide) parentPath_plainDots

/-- The path "/a./b", whose second segment ends with a dot. -/
def dottedName : Bytes := [slash, 0x61, dot, slash, 0x62]

/-- The dot of the name is dropped, and the slash behind it. -/
theorem dottedName_joined :
    SingleSlashed dottedName ∧ removeDotSegments dottedName = dottedName ∧
      pathNormalize dottedName = .ok [slash, 0x61, 0x62] := by
  refine ⟨?_, by decide, by decide⟩
  simp only [dottedName, singleSlashed_cons, singleSlashed_nil]
  decide

end ImpactSockets.Uri
