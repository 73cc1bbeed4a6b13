import ImpactSockets.Rfc.Uri.PathNormal

/-! The locals of the removal of dot segments as a stack: the segments that are
kept, and the offsets that `dir` has for them. -/
namespace ImpactSockets.Uri

open Ascii

/-- Segments that are kept, the last one first and each without its slash, what
is written behind them, and the dots that are pending. -/
structure SegmentStack where
  segments : List Bytes
  tail : Bytes
  dots : Nat
  segments_slash : ∀ segment ∈ segments, slash ∉ segment
  tail_slash : slash ∉ tail

namespace SegmentStack

def empty : SegmentStack := ⟨[], [], 0, by simp, by simp⟩

/-- The text of kept segments. -/
def written : List Bytes → Bytes
  | [] => []
  | segment :: rest => written rest ++ (segment ++ [slash])

def output (stack : SegmentStack) : Bytes := written stack.segments ++ stack.tail

/-- The offsets after the slashes of kept segments, as far as an `int` holds them. -/
def offsets : List Bytes → List Int
  | [] => []
  | segment :: rest => intOffset (written (segment :: rest)).length :: offsets rest

/-- ".." removes the last segment, but not the slash that a path begins with. -/
def pop : List Bytes → List Bytes
  | [] => []
  | [segment] => if segment = [] then [segment] else []
  | _ :: rest => rest

theorem mem_of_mem_pop {segments : List Bytes} {segment : Bytes} (h : segment ∈ pop segments) :
    segment ∈ segments := by
  match segments with
  | [] => exact h
  | [first] =>
      dsimp only [pop] at h
      split_ifs at h
      · exact h
      · cases h
  | last :: next :: rest => exact List.mem_cons_of_mem _ h

theorem dots_slash (n : Nat) {text : Bytes} (h : slash ∉ text) : slash ∉ text ++ List.replicate n dot := by
  intro hMem
  exact (List.mem_append.mp hMem).elim h (slash_not_mem_dots n)

/-- The pending dots are written. -/
def flush (stack : SegmentStack) : SegmentStack :=
  { stack with
    tail := stack.tail ++ List.replicate stack.dots dot
    dots := 0
    tail_slash := dots_slash _ stack.tail_slash }

/-- What a slash does: it ends a segment that is kept, removes one, or, behind
other dots, ends none. -/
def endSegment (stack : SegmentStack) : SegmentStack :=
  if stack.dots = 0 then
    ⟨stack.tail :: stack.segments, [], 0, List.forall_mem_cons.mpr ⟨stack.tail_slash, stack.segments_slash⟩, by simp⟩
  else if stack.dots = 2 then
    ⟨pop stack.segments, [], 0, fun _ h => stack.segments_slash _ (mem_of_mem_pop h), by simp⟩
  else if stack.dots ≠ 1 then stack.flush
  else { stack with dots := 0 }

/-- What another character than a dot does. -/
def write (stack : SegmentStack) (c : UInt8) (h : c ≠ slash) : SegmentStack :=
  { stack with
    tail := stack.tail ++ List.replicate stack.dots dot ++ [c]
    dots := 0
    tail_slash := by
      simp only [List.mem_append, List.mem_singleton, not_or]
      exact ⟨⟨stack.tail_slash, slash_not_mem_dots _⟩, h.symm⟩ }

def step (stack : SegmentStack) (c : UInt8) : SegmentStack :=
  if c = dot then { stack with dots := stack.dots + 1 }
  else if h : c = slash then stack.endSegment
  else stack.write c h

/-- What has been kept of a text. -/
def read (text : Bytes) : SegmentStack := text.foldl step empty

theorem read_concat (text : Bytes) (c : UInt8) : read (text ++ [c]) = (read text).step c := by
  simp [read]

end SegmentStack

open SegmentStack

/-- The locals hold a stack, next to offsets that are of no segment of it. -/
structure Represents (stale : List Int) (st : NormalizeState) (stack : SegmentStack) : Prop where
  dir : st.dir = offsets stack.segments ++ stale
  output : st.output = stack.output
  dots : st.dots = stack.dots

theorem represents_empty : Represents [] ⟨[], [], 0⟩ SegmentStack.empty := ⟨rfl, rfl, rfl⟩

/-! ### One character -/

variable {stale : List Int} {st : NormalizeState} {stack : SegmentStack}

theorem Represents.dot (h : Represents stale st stack) :
    ∃ next, normalizeStep st Ascii.dot = .ok next ∧ Represents stale next (stack.step Ascii.dot) := by
  refine ⟨{ st with dots := st.dots + 1 }, rfl, h.dir, h.output, ?_⟩
  exact congrArg (· + 1) h.dots

theorem Represents.write (h : Represents stale st stack) {c : UInt8} (hDot : c ≠ Ascii.dot) (hSlash : c ≠ slash) :
    ∃ next, normalizeStep st c = .ok next ∧ Represents stale next (stack.step c) := by
  refine ⟨⟨st.dir, st.output ++ List.replicate st.dots Ascii.dot ++ [c], 0⟩, ?_, ?_⟩
  · rw [normalizeStep, if_neg (by simpa using hDot), if_neg (by simpa using hSlash)]
    rfl
  · rw [SegmentStack.step, if_neg hDot, dif_neg hSlash]
    refine ⟨h.dir, ?_, rfl⟩
    simp [SegmentStack.write, SegmentStack.output, h.output, h.dots]

/-- A slash that does not stand behind "..". -/
theorem Represents.slash (h : Represents stale st stack) (hDots : stack.dots ≠ 2) :
    ∃ next, normalizeStep st Ascii.slash = .ok next ∧ Represents stale next stack.endSegment := by
  rw [normalizeStep, if_neg (by decide), if_pos (by decide), h.dots]
  unfold endSegment
  split_ifs with hZero hOne
  · refine ⟨_, rfl, ?_, ?_, rfl⟩
    · simp [offsets, SegmentStack.written, h.dir, h.output, SegmentStack.output, Nat.add_assoc]
    · simp [SegmentStack.output, SegmentStack.written, h.output]
  · refine ⟨_, rfl, h.dir, ?_, rfl⟩
    simp [SegmentStack.output, SegmentStack.flush, NormalizeState.flushDots, h.output, h.dots]
  · exact ⟨_, rfl, h.dir, h.output, rfl⟩

/-- Between slashes the segments and the offsets stay as they are. -/
theorem represents_plain (h : Represents stale st stack) {text : Bytes} (hText : slash ∉ text) :
    ∃ next, text.foldlM normalizeStep st = .ok next ∧ Represents stale next (text.foldl step stack) ∧
      (text.foldl step stack).segments = stack.segments := by
  induction text generalizing st stack with
  | nil => exact ⟨st, rfl, h, rfl⟩
  | cons c text ih =>
      obtain ⟨hc, hRest⟩ : slash ≠ c ∧ slash ∉ text := by simpa using hText
      have hFold {middle last : NormalizeState} (hMiddle : normalizeStep st c = .ok middle)
          (hLast : text.foldlM normalizeStep middle = .ok last) : (c :: text).foldlM normalizeStep st = .ok last := by
        simp only [List.foldlM_cons, hMiddle, bind, Except.bind, hLast]
      by_cases hDot : c = dot
      · subst hDot
        obtain ⟨middle, hMiddle, hRep⟩ := h.dot
        obtain ⟨last, hLast, hRepLast, hSegments⟩ := ih hRep hRest
        exact ⟨last, hFold hMiddle hLast, hRepLast, hSegments⟩
      · obtain ⟨middle, hMiddle, hRep⟩ := h.write hDot hc.symm
        obtain ⟨last, hLast, hRepLast, hSegments⟩ := ih hRep hRest
        refine ⟨last, hFold hMiddle hLast, hRepLast, ?_⟩
        rw [List.foldl_cons, hSegments, step, if_neg hDot, dif_neg hc.symm]
        rfl

/-! ### A slash behind ".." -/

/-- An offset is what it is meant to be as long as an `int` holds it. -/
theorem intOffset_eq_iff (n : Nat) : intOffset n = n ↔ n < 2 ^ 31 := by
  unfold intOffset
  rw [Int.bmod_def]
  omega

theorem normalizeStep_pop (h : st.dots = 2) :
    normalizeStep st Ascii.slash = (popSegment st).map fun next => { next with dots := 0 } := by
  rw [normalizeStep, if_neg (by decide), if_pos (by decide), h]
  rfl

theorem popSegment_short (h : st.dir.length ≤ 1) :
    popSegment st = .ok { st with output := if st.output.head? = some Ascii.slash then st.output.take 1 else [] } := by
  unfold popSegment
  split
  · next hDir =>
    rw [hDir] at h
    simp at h
  · split_ifs <;> rfl

/-- The last of several segments is removed. -/
theorem Represents.pop_last (h : Represents stale st stack) (hDots : stack.dots = 2) {last next : Bytes}
    {rest : List Bytes} (hSegments : stack.segments = last :: next :: rest)
    (hShort : (written (next :: rest)).length < 2 ^ 31) :
    ∃ after, normalizeStep st Ascii.slash = .ok after ∧ Represents stale after stack.endSegment := by
  have hOffset := (intOffset_eq_iff _).mpr hShort
  have hDir : st.dir = intOffset (written (last :: next :: rest)).length ::
      ((written (next :: rest)).length : Int) :: (offsets rest ++ stale) := by
    rw [h.dir, hSegments, offsets, offsets, hOffset]
    rfl
  have hOutput : st.output = written (next :: rest) ++ (last ++ [Ascii.slash] ++ stack.tail) := by
    rw [h.output, SegmentStack.output, hSegments, written, List.append_assoc]
  have hPop : popSegment st = .ok ⟨offsets (next :: rest) ++ stale, written (next :: rest), st.dots⟩ := by
    have hLe : (written (next :: rest)).length ≤ st.output.length := by
      rw [hOutput, List.length_append]
      omega
    have hTake : st.output.take (written (next :: rest)).length = written (next :: rest) := by
      rw [hOutput, List.take_left]
    unfold popSegment
    rw [hDir]
    dsimp only
    rw [if_pos ⟨by omega, by omega⟩, Int.toNat_natCast, hTake, offsets, hOffset]
    rfl
  refine ⟨⟨offsets (next :: rest) ++ stale, written (next :: rest), 0⟩, ?_, ?_⟩
  · rw [normalizeStep_pop (h.dots.trans hDots), hPop]
    rfl
  · rw [endSegment, if_neg (by omega), if_pos hDots]
    refine ⟨?_, ?_, rfl⟩
    · simp only [hSegments, pop]
    · simp [hSegments, pop, SegmentStack.output]

/-- With no segment left, only what is written behind them is removed. -/
theorem Represents.pop_none (h : Represents stale st stack) (hDots : stack.dots = 2) (hSegments : stack.segments = [])
    (hStale : stale.length ≤ 1) :
    ∃ after, normalizeStep st Ascii.slash = .ok after ∧ Represents stale after stack.endSegment := by
  have hDir : st.dir = stale := by
    rw [h.dir, hSegments]
    rfl
  have hHead : st.output.head? ≠ some Ascii.slash := by
    rw [h.output, SegmentStack.output, hSegments]
    intro hHead
    exact stack.tail_slash (List.mem_of_head? hHead)
  refine ⟨⟨st.dir, [], 0⟩, ?_, ?_⟩
  · rw [normalizeStep_pop (h.dots.trans hDots), popSegment_short (hDir ▸ hStale), if_neg hHead]
    rfl
  · rw [endSegment, if_neg (by omega), if_pos hDots]
    refine ⟨?_, ?_, rfl⟩
    · simp [hSegments, pop, offsets, hDir]
    · simp [hSegments, pop, SegmentStack.output, written]

/-- The slash that a path begins with stays. -/
theorem Represents.pop_root (h : Represents [] st stack) (hDots : stack.dots = 2) (hSegments : stack.segments = [[]]) :
    ∃ after, normalizeStep st Ascii.slash = .ok after ∧ Represents [] after stack.endSegment := by
  have hOutput : st.output = Ascii.slash :: stack.tail := by
    rw [h.output, SegmentStack.output, hSegments]
    rfl
  refine ⟨⟨st.dir, [Ascii.slash], 0⟩, ?_, ?_⟩
  · rw [normalizeStep_pop (h.dots.trans hDots), popSegment_short (by simp [h.dir, hSegments, offsets]), hOutput]
    rfl
  · rw [endSegment, if_neg (by omega), if_pos hDots]
    refine ⟨?_, ?_, rfl⟩
    · simp [hSegments, pop, h.dir]
    · simp [hSegments, pop, SegmentStack.output, written]

/-- The only segment is removed, and its offset stays. -/
theorem Represents.pop_only (h : Represents [] st stack) (hDots : stack.dots = 2) {segment : Bytes}
    (hSegments : stack.segments = [segment]) (hNe : segment ≠ []) :
    ∃ after, normalizeStep st Ascii.slash = .ok after ∧ Represents (offsets [segment]) after stack.endSegment := by
  have hHead : st.output.head? ≠ some Ascii.slash := by
    obtain ⟨c, rest, rfl⟩ := List.exists_cons_of_ne_nil hNe
    have hNot := stack.segments_slash (c :: rest) (by simp [hSegments])
    rw [h.output, SegmentStack.output, hSegments]
    intro hHead
    exact hNot (by simp [Option.some.inj hHead])
  refine ⟨⟨st.dir, [], 0⟩, ?_, ?_⟩
  · rw [normalizeStep_pop (h.dots.trans hDots), popSegment_short (by simp [h.dir, hSegments, offsets]), if_neg hHead]
    rfl
  · rw [endSegment, if_neg (by omega), if_pos hDots]
    refine ⟨?_, ?_, rfl⟩
    · simp [hSegments, pop, hNe, offsets, h.dir]
    · simp [hSegments, pop, hNe, SegmentStack.output, written]

end ImpactSockets.Uri
