import ImpactSockets.Rfc.Uri

/-! When the removal of dot segments leaves a path as it is, and what it makes
of the other paths. -/
namespace ImpactSockets.Uri

open Ascii

/-- No slash follows a dot. -/
def Undotted (path : Bytes) : Prop := ∀ before after, path ≠ before ++ dot :: slash :: after

/-- No slash follows a slash. -/
def SingleSlashed (path : Bytes) : Prop := ∀ before after, path ≠ before ++ slash :: slash :: after

theorem Undotted.of_append {first second : Bytes} (h : Undotted (first ++ second)) : Undotted first := by
  rintro before after rfl
  exact h before (after ++ second) (by simp)

theorem SingleSlashed.of_append {first second : Bytes} (h : SingleSlashed (first ++ second)) :
    SingleSlashed first := by
  rintro before after rfl
  exact h before (after ++ second) (by simp)

/-- No two slashes in a row, character by character. -/
theorem singleSlashed_cons {c : UInt8} {path : Bytes} :
    SingleSlashed (c :: path) ↔ (c = slash → path.head? ≠ some slash) ∧ SingleSlashed path := by
  constructor
  · intro h
    refine ⟨?_, ?_⟩
    · rintro rfl hHead
      obtain ⟨tail, rfl⟩ := List.head?_eq_some_iff.mp hHead
      exact h [] tail rfl
    · rintro before after rfl
      exact h (c :: before) after rfl
  · rintro ⟨hFirst, hRest⟩ before after hEq
    rcases before with _ | ⟨d, before⟩
    · obtain ⟨rfl, rfl⟩ := List.cons.inj hEq
      exact hFirst rfl rfl
    · exact hRest before after (List.cons.inj hEq).2

/-! ### One character -/

/-- A slash after dots that are no segment to remove keeps or drops the dots; a
slash after ".." cuts the output. -/
theorem slash_after_dots {st next : NormalizeState} (hDots : st.dots ≠ 0)
    (h : normalizeStep st slash = .ok next) :
    next.dots = 0 ∧ (next.output = st.output ++ List.replicate st.dots dot ∨
      ∃ n, next.output = st.output.take n) := by
  rw [normalizeStep, if_neg (by decide), if_pos (by decide), if_neg hDots] at h
  by_cases hTwo : st.dots = 2
  · rw [if_pos hTwo] at h
    unfold popSegment at h
    split at h
    · next last i rest hDir =>
      split_ifs at h with hLe
      · cases h
        exact ⟨rfl, .inr ⟨i.toNat, rfl⟩⟩
      · cases h
    · split_ifs at h with hHead
      · cases h
        exact ⟨rfl, .inr ⟨1, rfl⟩⟩
      · cases h
        exact ⟨rfl, .inr ⟨0, rfl⟩⟩
  · rw [if_neg hTwo] at h
    split_ifs at h with hOne
    · cases h
      exact ⟨rfl, .inl rfl⟩
    · cases h
      exact ⟨rfl, .inr ⟨st.output.length, by simp⟩⟩

/-- What the loop does with one character. -/
theorem normalizeStep_cases {st next : NormalizeState} {c : UInt8} (h : normalizeStep st c = .ok next) :
    (c = dot ∧ next = { st with dots := st.dots + 1 }) ∨
    (c = slash ∧ st.dots = 0 ∧ next = ⟨intOffset (st.output.length + 1) :: st.dir, st.output ++ [slash], 0⟩) ∨
    (c = slash ∧ st.dots ≠ 0 ∧ normalizeStep st slash = .ok next) ∨
    (c ≠ dot ∧ c ≠ slash ∧ next = ⟨st.dir, st.output ++ List.replicate st.dots dot ++ [c], 0⟩) := by
  by_cases hDot : c = dot
  · subst hDot
    cases h
    exact .inl ⟨rfl, rfl⟩
  by_cases hSlash : c = slash
  · subst hSlash
    by_cases hZero : st.dots = 0
    · rw [normalizeStep, if_neg (by decide), if_pos (by decide), if_pos hZero] at h
      cases h
      exact .inr (.inl ⟨rfl, hZero, rfl⟩)
    · exact .inr (.inr (.inl ⟨rfl, hZero, h⟩))
  · rw [normalizeStep, if_neg (by simpa using hDot), if_neg (by simpa using hSlash)] at h
    cases h
    exact .inr (.inr (.inr ⟨hDot, hSlash, rfl⟩))

/-- A property of the characters read so far and the locals that holds at the
start and is kept by one character. -/
theorem normalize_invariant {invariant : Bytes → NormalizeState → Prop} (hInit : invariant [] ⟨[], [], 0⟩)
    {path : Bytes} (hStep : ∀ before c after st next, path = before ++ c :: after → invariant before st →
      normalizeStep st c = .ok next → invariant (before ++ [c]) next) {last : NormalizeState}
    (h : path.foldlM normalizeStep ⟨[], [], 0⟩ = .ok last) : invariant path last := by
  suffices hAll : ∀ before after st, path = before ++ after → invariant before st →
      after.foldlM normalizeStep st = .ok last → invariant path last from
    hAll [] path _ rfl hInit h
  intro before after
  induction after generalizing before with
  | nil =>
      intro st hPath hInv hFold
      cases hFold
      rw [hPath, List.append_nil]
      exact hInv
  | cons c after ih =>
      intro st hPath hInv hFold
      rw [List.foldlM_cons] at hFold
      cases hNext : normalizeStep st c with
      | error fault =>
          rw [hNext] at hFold
          cases hFold
      | ok next =>
          rw [hNext] at hFold
          exact ih (before ++ [c]) next (by simp [hPath]) (hStep before c after st next hPath hInv hNext) hFold

/-- The output with the dots that are still pending. -/
def NormalizeState.seen (st : NormalizeState) : Bytes := st.output ++ List.replicate st.dots dot

theorem pathNormalize_ok {path output : Bytes} (h : pathNormalize path = .ok output) :
    ∃ last, path.foldlM normalizeStep ⟨[], [], 0⟩ = .ok last ∧ output = last.seen := by
  unfold pathNormalize at h
  cases hLast : path.foldlM normalizeStep ⟨[], [], 0⟩ with
  | error fault =>
      rw [hLast] at h
      cases h
  | ok last =>
      rw [hLast] at h
      cases h
      exact ⟨last, rfl, rfl⟩

/-- A character is added to what has been seen, unless it is a slash after dots:
then something is dropped. -/
theorem seen_step {st next : NormalizeState} {c : UInt8} (h : normalizeStep st c = .ok next) :
    (next.seen = st.seen ++ [c] ∧ (c = slash → st.dots = 0)) ∨
      (c = slash ∧ st.dots ≠ 0 ∧ next.seen.length ≤ st.seen.length) := by
  rcases normalizeStep_cases h with ⟨rfl, rfl⟩ | ⟨rfl, hZero, rfl⟩ | ⟨rfl, hDots, hSlash⟩ | ⟨_, hNe, rfl⟩
  · left
    exact ⟨by simp [NormalizeState.seen, List.replicate_succ'], fun hSlash => absurd hSlash (by decide)⟩
  · left
    simp [NormalizeState.seen, hZero]
  · right
    obtain ⟨hNext, hOutput | ⟨n, hOutput⟩⟩ := slash_after_dots hDots hSlash
    · exact ⟨rfl, hDots, by simp [NormalizeState.seen, hNext, hOutput]⟩
    · refine ⟨rfl, hDots, ?_⟩
      simp only [NormalizeState.seen, hNext, hOutput, List.length_append, List.length_take,
        List.length_replicate]
      omega
  · left
    simp [NormalizeState.seen, hNe]

/-- The pending dots are the ones that the characters read so far end with. -/
def DotsPending (before : Bytes) (st : NormalizeState) : Prop :=
  before.getLast? = some dot ↔ st.dots ≠ 0

theorem dotsPending_init : DotsPending [] ⟨[], [], 0⟩ := by
  simp [DotsPending]

/-- Each step keeps track of the dots that were met last. -/
theorem dotsPending_step {before : Bytes} {c : UInt8} {st next : NormalizeState}
    (h : normalizeStep st c = .ok next) : DotsPending (before ++ [c]) next := by
  rw [DotsPending, List.getLast?_concat]
  rcases normalizeStep_cases h with ⟨rfl, rfl⟩ | ⟨rfl, _, rfl⟩ | ⟨rfl, hDots, hSlash⟩ | ⟨hDot, _, rfl⟩
  · simp
  · exact iff_of_false (by decide) (by simp)
  · exact iff_of_false (by decide) (by simp [(slash_after_dots hDots hSlash).1])
  · simpa using hDot

/-! ### Paths that are kept -/

/-- What has been seen is no longer than what has been read, and as long only if
nothing has been dropped. -/
structure Kept (before : Bytes) (st : NormalizeState) : Prop where
  pending : DotsPending before st
  length_le : st.seen.length ≤ before.length
  undotted : st.seen.length = before.length → Undotted before

theorem undotted_concat {before : Bytes} {c : UInt8} (h : Undotted before)
    (hLast : c = slash → before.getLast? ≠ some dot) : Undotted (before ++ [c]) := by
  intro first second hEq
  rcases List.eq_nil_or_concat second with rfl | ⟨init, d, rfl⟩
  · have hSplit : before ++ [c] = (first ++ [dot]) ++ [slash] := by rw [hEq]; simp
    obtain ⟨rfl, hc⟩ := List.append_inj' hSplit rfl
    exact hLast (List.cons.inj hc).1 (List.getLast?_concat ..)
  · have hSplit : before ++ [c] = (first ++ dot :: slash :: init) ++ [d] := by rw [hEq]; simp
    exact h first init (List.append_inj' hSplit rfl).1

/-- Each step keeps an undotted path in its output. -/
theorem kept_step {before : Bytes} {c : UInt8} {st next : NormalizeState} (hKept : Kept before st)
    (h : normalizeStep st c = .ok next) : Kept (before ++ [c]) next := by
  have hLe := hKept.length_le
  rcases seen_step h with ⟨hSeen, hSlash⟩ | ⟨_, _, hSeen⟩
  · refine ⟨dotsPending_step h, by simpa [hSeen] using hLe, fun hLength => ?_⟩
    refine undotted_concat (hKept.undotted (by simpa [hSeen] using hLength)) fun hc hLast => ?_
    exact hKept.pending.mp hLast (hSlash hc)
  · refine ⟨dotsPending_step h, ?_, fun hLength => ?_⟩
    · rw [List.length_append]
      omega
    · rw [List.length_append, List.length_singleton] at hLength
      omega

/-- A step fails only at a slash behind dots. -/
theorem normalizeStep_total {st : NormalizeState} {c : UInt8} (h : c = slash → st.dots = 0) :
    ∃ next, normalizeStep st c = .ok next := by
  by_cases hDot : c = dot
  · exact ⟨{ st with dots := st.dots + 1 }, by rw [normalizeStep, if_pos (by simpa using hDot)]⟩
  rw [normalizeStep, if_neg (by simpa using hDot)]
  by_cases hSlash : c = slash
  · rw [if_pos (by simpa using hSlash), if_pos (h hSlash)]
    exact ⟨_, rfl⟩
  · rw [if_neg (by simpa using hSlash)]
    exact ⟨_, rfl⟩

/-- A run over an undotted path comes to its end. -/
theorem normalize_total {path : Bytes} (h : Undotted path) :
    ∃ last, path.foldlM normalizeStep ⟨[], [], 0⟩ = .ok last := by
  suffices hAll : ∀ before after st, path = before ++ after → DotsPending before st →
      ∃ last, after.foldlM normalizeStep st = .ok last from
    hAll [] path _ rfl dotsPending_init
  intro before after
  induction after generalizing before with
  | nil => exact fun st _ _ => ⟨st, rfl⟩
  | cons c after ih =>
      intro st hPath hPending
      have hZero : c = slash → st.dots = 0 := by
        intro hSlash
        by_contra hDots
        obtain ⟨init, hInit⟩ := List.getLast?_eq_some_iff.mp (hPending.mpr hDots)
        exact h init after (by rw [hPath, hInit, hSlash]; simp)
      obtain ⟨next, hNext⟩ := normalizeStep_total hZero
      obtain ⟨last, hLast⟩ := ih (before ++ [c]) next (by simp [hPath]) (dotsPending_step hNext)
      exact ⟨last, by rw [List.foldlM_cons, hNext]; exact hLast⟩

/-- The removal of dot segments leaves a path as it is if and only if no slash in
it follows a dot. -/
theorem pathNormalize_eq_self_iff (path : Bytes) : pathNormalize path = .ok path ↔ Undotted path := by
  constructor
  · intro h
    obtain ⟨last, hLast, hSeen⟩ := pathNormalize_ok h
    have hKept : Kept path last :=
      normalize_invariant ⟨dotsPending_init, Nat.le_refl 0, fun _ before after hEq => by simp at hEq⟩
        (fun _ _ _ _ _ _ hKept hNext => kept_step hKept hNext) hLast
    exact hKept.undotted (by rw [← hSeen])
  · intro h
    obtain ⟨last, hLast⟩ := normalize_total h
    have hSeen : DotsPending path last ∧ last.seen = path := by
      refine @normalize_invariant (fun before st => DotsPending before st ∧ st.seen = before)
        ⟨dotsPending_init, rfl⟩ path ?_ last hLast
      rintro before c after st next hPath ⟨hPending, hSeen⟩ hNext
      refine ⟨dotsPending_step hNext, ?_⟩
      rcases seen_step hNext with ⟨hNextSeen, _⟩ | ⟨rfl, hDots, _⟩
      · rw [hNextSeen, hSeen]
      · obtain ⟨init, hInit⟩ := List.getLast?_eq_some_iff.mp (hPending.mpr hDots)
        exact (h init after (by rw [hPath, hInit]; simp)).elim
    unfold pathNormalize
    rw [hLast]
    exact congrArg Except.ok hSeen.2

/-! ### Paths in general -/

/-- Every slash comes first or after a character that is no dot or slash. -/
def Settled (path : Bytes) : Prop :=
  ∀ before after, path = before ++ slash :: after →
    before = [] ∨ ∃ c, before.getLast? = some c ∧ c ≠ dot ∧ c ≠ slash

theorem Settled.undotted {path : Bytes} (h : Settled path) : Undotted path := by
  rintro before after rfl
  rcases h (before ++ [dot]) after (by simp) with hNil | ⟨c, hc, hDot, _⟩
  · simp at hNil
  · rw [List.getLast?_concat] at hc
    exact hDot (Option.some.inj hc).symm

theorem Settled.singleSlashed {path : Bytes} (h : Settled path) : SingleSlashed path := by
  rintro before after rfl
  rcases h (before ++ [slash]) after (by simp) with hNil | ⟨c, hc, _, hSlash⟩
  · simp at hNil
  · rw [List.getLast?_concat] at hc
    exact hSlash (Option.some.inj hc).symm

theorem settled_nil : Settled [] := by
  intro before after h
  simp at h

theorem Settled.take {path : Bytes} (h : Settled path) (n : Nat) : Settled (path.take n) := by
  intro before after hEq
  refine h before (after ++ path.drop n) ?_
  calc path = path.take n ++ path.drop n := (List.take_append_drop n path).symm
    _ = before ++ slash :: (after ++ path.drop n) := by rw [hEq]; simp

/-- What is settled stays so with a segment behind it. -/
theorem Settled.append {path suffix : Bytes} (h : Settled path) (hSuffix : slash ∉ suffix) :
    Settled (path ++ suffix) := by
  intro before after hEq
  rcases List.append_eq_append_iff.mp hEq with ⟨middle, rfl, hMiddle⟩ | ⟨middle, hBefore, hMiddle⟩
  · exact (hSuffix (by rw [hMiddle]; simp)).elim
  · rcases middle with _ | ⟨c, middle⟩
    · exact (hSuffix (by rw [← List.nil_append suffix, ← hMiddle]; simp)).elim
    · obtain ⟨rfl, _⟩ := List.cons.inj hMiddle
      exact h before middle hBefore

theorem Settled.slash {path : Bytes} (h : Settled path)
    (hLast : path = [] ∨ ∃ c, path.getLast? = some c ∧ c ≠ dot ∧ c ≠ Ascii.slash) :
    Settled (path ++ [Ascii.slash]) := by
  intro before after hEq
  rcases List.eq_nil_or_concat after with rfl | ⟨init, d, rfl⟩
  · obtain ⟨rfl, _⟩ := List.append_inj' hEq rfl
    exact hLast
  · have hSplit : path ++ [Ascii.slash] = (before ++ Ascii.slash :: init) ++ [d] := by rw [hEq]; simp
    exact h before init (List.append_inj' hSplit rfl).1

/-- What holds of the locals while a path is read in which slashes stand alone. -/
structure Settling (before : Bytes) (st : NormalizeState) : Prop where
  pending : DotsPending before st
  settled : Settled st.output
  /-- A character that is no dot or slash is written when it is read. -/
  last : ∀ c, before.getLast? = some c → c ≠ dot → c ≠ slash → st.output.getLast? = some c
  empty : before = [] → st.output = []

theorem slash_not_mem_dots (n : Nat) : slash ∉ List.replicate n dot := by
  intro h
  exact absurd (List.eq_of_mem_replicate h) (by decide)

/-- Each step leaves the output settled, apart from the segment in progress. -/
theorem settling_step {before after : Bytes} {c : UInt8} {st next : NormalizeState}
    (hSingle : SingleSlashed (before ++ c :: after)) (hSettling : Settling before st)
    (h : normalizeStep st c = .ok next) : Settling (before ++ [c]) next := by
  have hPending : DotsPending (before ++ [c]) next := dotsPending_step h
  have hDotted := slash_not_mem_dots st.dots
  rcases normalizeStep_cases h with ⟨rfl, rfl⟩ | ⟨rfl, hZero, rfl⟩ | ⟨rfl, hDots, hSlash⟩ | ⟨hDot, hNe, rfl⟩
  · exact ⟨hPending, hSettling.settled, by simp, by simp⟩
  · have hLast : before = [] ∨ ∃ d, st.output.getLast? = some d ∧ d ≠ dot ∧ d ≠ slash := by
      rcases List.eq_nil_or_concat before with hNil | ⟨init, d, hConcat⟩
      · exact .inl hNil
      · rw [List.concat_eq_append] at hConcat
        subst hConcat
        have hd : (init ++ [d]).getLast? = some d := List.getLast?_concat ..
        have hDot : d ≠ dot := by
          rintro rfl
          exact hSettling.pending.mp hd hZero
        have hSlash : d ≠ slash := by
          rintro rfl
          exact hSingle init after (by simp)
        exact .inr ⟨d, hSettling.last d hd hDot hSlash, hDot, hSlash⟩
    exact ⟨hPending, hSettling.settled.slash (hLast.imp_left hSettling.empty), by simp, by simp⟩
  · refine ⟨hPending, ?_, by simp, by simp⟩
    obtain ⟨_, hOutput | ⟨n, hOutput⟩⟩ := slash_after_dots hDots hSlash
    · rw [hOutput]
      exact hSettling.settled.append hDotted
    · rw [hOutput]
      exact hSettling.settled.take n
  · have hSuffix : slash ∉ List.replicate st.dots dot ++ [c] := by
      simpa [hNe.symm] using hDotted
    refine ⟨hPending, ?_, ?_, by simp⟩
    · rw [List.append_assoc]
      exact hSettling.settled.append hSuffix
    · intro d hd _ _
      rw [List.getLast?_concat] at hd ⊢
      exact hd

/-- What the removal of dot segments yields is left as it is by it, and has no
empty segment. -/
theorem pathNormalize_settled {path output : Bytes} (hSingle : SingleSlashed path)
    (h : pathNormalize path = .ok output) : Undotted output ∧ SingleSlashed output := by
  obtain ⟨last, hLast, rfl⟩ := pathNormalize_ok h
  have hInit : Settling [] ⟨[], [], 0⟩ := ⟨dotsPending_init, settled_nil, by simp, fun _ => rfl⟩
  have hSettling : Settling path last := by
    refine normalize_invariant hInit (fun before c after st next hPath hBefore hNext => ?_) hLast
    exact settling_step (hPath ▸ hSingle) hBefore hNext
  have hSettled : Settled last.seen := hSettling.settled.append (slash_not_mem_dots last.dots)
  exact ⟨hSettled.undotted, hSettled.singleSlashed⟩

end ImpactSockets.Uri
