import ImpactSockets.Rfc.Uri.RoundTrip
import ImpactSockets.Rfc.Uri.SchemeRegistry
import ImpactSockets.Rfc.Uri.SegmentStack

/-! Whether the triplets of the stored components are whole, which the decoder
of the `norm_` getters relies on. Parsing makes them so, but the removal of dot
segments may cut a triplet apart at an offset that is not of its output. -/
namespace ImpactSockets.Uri

open Abnf AbnfOps Ascii SegmentStack
open scoped Computability

def upperHexdig (c : UInt8) : Bool := digit c || (0x41 ≤ c && c ≤ 0x46)

/-- Every "%" is followed by two upper-case hex digits. -/
def Decodable (text : Bytes) : Prop :=
  ∀ before after, text = before ++ percent :: after →
    ∃ high low rest, after = high :: low :: rest ∧ upperHexdig high = true ∧ upperHexdig low = true

/-- A text and what it is decoded to, triplet by triplet. -/
inductive Decoding : Bytes → Bytes → Prop where
  | nil : Decoding [] []
  | plain {c : UInt8} {text decoded : Bytes} (hc : c ≠ percent) (h : Decoding text decoded) :
      Decoding (c :: text) (c :: decoded)
  | triplet {high low : UInt8} {text decoded : Bytes} (hHigh : upperHexdig high = true) (hLow : upperHexdig low = true)
      (h : Decoding text decoded) : Decoding (percent :: high :: low :: text) (encodedByte high low :: decoded)

/-- The loop of the decoder takes hex digits only for nibbles, and ends between
triplets. -/
def NibblesRead : Bytes → PercentState → Prop
  | [], st => st = .plain
  | c :: rest, .plain => if c == percent then NibblesRead rest .high else NibblesRead rest .plain
  | c :: rest, .high => upperHexdig c = true ∧ NibblesRead rest (.low c)
  | c :: rest, .low _ => upperHexdig c = true ∧ NibblesRead rest .plain

/-- The decoder of the `norm_` getters gives back what the text encodes. -/
structure Restorable (text : Bytes) : Prop where
  triplets : Decodable text
  nibbles : NibblesRead text .plain
  decoded : Decoding text (percentDecodeText text)

/-! ### Texts with whole triplets -/

set_option maxRecDepth 4000 in
/-- A capital hexadecimal digit is one, is its own capital and is no percent sign. -/
theorem upperHexdig_spec : ∀ c : UInt8, upperHexdig c = true → hexdig c = true ∧ toupper c = c ∧ c ≠ percent := by
  decide

set_option maxRecDepth 4000 in
theorem upperHexdig_toupper : ∀ c : UInt8, hexdig c = true → upperHexdig (toupper c) = true := by
  decide

set_option maxRecDepth 4000 in
theorem tolower_percent : ∀ c : UInt8, tolower c = percent → c = percent := by
  decide

/-- A text without percent signs is decodable. -/
theorem decodable_of_no_percent {text : Bytes} (h : percent ∉ text) : Decodable text := by
  rintro before after rfl
  exact absurd (by simp) h

/-- A character other than the percent sign does not matter. -/
theorem decodable_cons {c : UInt8} (hc : c ≠ percent) {rest : Bytes} : Decodable (c :: rest) ↔ Decodable rest := by
  constructor
  · rintro h before after rfl
    exact h (c :: before) after rfl
  · intro h before after hEq
    rcases before with _ | ⟨d, before⟩
    · exact absurd (List.cons.inj hEq).1 hc
    · exact h before after (List.cons.inj hEq).2

/-- A triplet in capitals does not matter. -/
theorem decodable_triplet {high low : UInt8} (hHigh : upperHexdig high = true) (hLow : upperHexdig low = true)
    {rest : Bytes} : Decodable (percent :: high :: low :: rest) ↔ Decodable rest := by
  have hDigits : Decodable rest ↔ Decodable (high :: low :: rest) := by
    rw [decodable_cons (upperHexdig_spec high hHigh).2.2, decodable_cons (upperHexdig_spec low hLow).2.2]
  rw [hDigits]
  constructor
  · rintro h before after hEq
    exact h (percent :: before) after (by rw [hEq]; rfl)
  · intro h before after hEq
    rcases before with _ | ⟨d, before⟩
    · exact ⟨high, low, rest, (List.cons.inj hEq).2.symm, hHigh, hLow⟩
    · exact h before after (List.cons.inj hEq).2

/-- An induction over characters and triplets. -/
theorem decodable_induction {property : Bytes → Prop} (hNil : property [])
    (hPlain : ∀ c rest, c ≠ percent → property rest → property (c :: rest))
    (hTriplet : ∀ high low rest, upperHexdig high = true → upperHexdig low = true → property rest →
      property (percent :: high :: low :: rest)) {text : Bytes} (h : Decodable text) : property text := by
  induction hLength : text.length using Nat.strong_induction_on generalizing text with
  | _ length ih =>
      subst hLength
      cases text with
      | nil => exact hNil
      | cons c rest =>
          by_cases hc : c = percent
          · subst hc
            obtain ⟨high, low, tail, rfl, hHigh, hLow⟩ := h [] rest rfl
            refine hTriplet high low tail hHigh hLow (ih tail.length ?_ ((decodable_triplet hHigh hLow).mp h) rfl)
            simp only [List.length_cons]
            omega
          · exact hPlain c rest hc (ih rest.length (by simp) ((decodable_cons hc).mp h) rfl)

/-- Two decodable texts make a decodable one: no triplet is cut by the seam. -/
theorem Decodable.append {first second : Bytes} (hFirst : Decodable first) (hSecond : Decodable second) :
    Decodable (first ++ second) := by
  refine @decodable_induction (fun first => Decodable (first ++ second)) hSecond ?_ ?_ first hFirst
  · intro c rest hc ih
    exact (decodable_cons hc).mpr ih
  · intro high low rest hHigh hLow ih
    exact (decodable_triplet hHigh hLow).mpr ih

/-- What remains of a decodable text is decodable, as its percent signs come first. -/
theorem Decodable.of_append_right {first second : Bytes} (h : Decodable (first ++ second)) : Decodable second := by
  rintro before after rfl
  exact h (first ++ before) after (by simp)

/-- In front of a character that is no digit the triplets are whole. -/
theorem Decodable.of_boundary {first second : Bytes} {c : UInt8} (hc : upperHexdig c = false)
    (h : Decodable (first ++ c :: second)) : Decodable first := by
  rintro before after rfl
  obtain ⟨high, low, rest, hEq, hHigh, hLow⟩ := h before (after ++ c :: second) (by simp)
  rcases after with _ | ⟨d, _ | ⟨e, tail⟩⟩
  · rw [List.nil_append] at hEq
    rw [(List.cons.inj hEq).1, hHigh] at hc
    cases hc
  · rw [List.singleton_append] at hEq
    rw [(List.cons.inj (List.cons.inj hEq).2).1, hLow] at hc
    cases hc
  · obtain ⟨rfl, hTail⟩ := List.cons.inj hEq
    obtain ⟨rfl, _⟩ := List.cons.inj hTail
    exact ⟨d, e, tail, rfl, hHigh, hLow⟩

/-- The decoder of the `norm_` getters reads such a text well. -/
theorem restorable_of_decodable {text : Bytes} (h : Decodable text) : Restorable text := by
  have hPercent : (percent == percent) = true := rfl
  refine ⟨h, ?_, ?_⟩
  · refine @decodable_induction (fun text => NibblesRead text .plain) rfl ?_ ?_ text h
    · intro c rest hc ih
      rw [NibblesRead, if_neg (by simpa using hc)]
      exact ih
    · intro high low rest hHigh hLow ih
      rw [NibblesRead, if_pos hPercent]
      exact ⟨hHigh, hLow, ih⟩
  · refine @decodable_induction (fun text => Decoding text (percentDecodeText text)) .nil ?_ ?_ text h
    · intro c rest hc ih
      rw [percentDecodeText, decodeTextLoop, if_neg (by simpa using hc)]
      exact .plain hc ih
    · intro high low rest hHigh hLow ih
      obtain ⟨hHighHex, hHighUpper, _⟩ := upperHexdig_spec high hHigh
      obtain ⟨hLowHex, hLowUpper, _⟩ := upperHexdig_spec low hLow
      have hByte : nibbleByte high low = encodedByte high low := by
        rw [← nibbleByte_toupper hHighHex hLowHex, hHighUpper, hLowUpper]
      rw [percentDecodeText, decodeTextLoop, if_pos hPercent, decodeTextLoop, decodeTextLoop, hByte]
      exact .triplet hHigh hLow ih

/-! ### The removal of dot segments -/

/-- A slash here removes the only segment that is kept, and leaves its offset. -/
def SegmentStack.RemovesOnly (stack : SegmentStack) : Prop :=
  stack.dots = 2 ∧ ∃ segment, stack.segments = [segment] ∧ segment ≠ []

/-- ".." removes the only segment that is kept at most once, and leaves no more
than an `int` can tell. -/
structure ClearsOnce (path : Bytes) : Prop where
  once : ∀ before middle after, path = before ++ slash :: (middle ++ slash :: after) →
    (read before).RemovesOnly → ¬(read (before ++ slash :: middle)).RemovesOnly
  short : ∀ before after last next rest, path = before ++ slash :: after → (read before).dots = 2 →
    (read before).segments = last :: next :: rest → (written (next :: rest)).length < 2 ^ 31

/-- What a stack holds and the dots that are pending. -/
def SegmentStack.seen (stack : SegmentStack) : Bytes := stack.output ++ List.replicate stack.dots dot

/-! Every removal ends behind a slash, which no triplet contains. -/

theorem decodable_dots (n : Nat) : Decodable (List.replicate n dot) :=
  decodable_of_no_percent fun h => absurd (List.eq_of_mem_replicate h) (by decide)

theorem decodable_slash : Decodable [slash] := decodable_of_no_percent (by decide)

/-- The segments that ".." leaves. -/
theorem decodable_pop {segments : List Bytes} {tail : Bytes} (h : Decodable (written segments ++ tail)) :
    Decodable (written (pop segments)) := by
  match segments with
  | [] => exact decodable_of_no_percent (by simp [pop, written])
  | [segment] =>
      dsimp only [pop]
      split_ifs with hNil
      · exact hNil ▸ decodable_slash
      · exact decodable_of_no_percent (by simp [written])
  | last :: next :: rest =>
      have hCut : written (last :: next :: rest) ++ tail =
          written rest ++ next ++ slash :: (last ++ slash :: tail) := by
        simp [written]
      have hFront := Decodable.of_boundary (by decide) (hCut ▸ h)
      have hKept : written (pop (last :: next :: rest)) = written rest ++ next ++ [slash] := by
        simp [pop, written]
      rw [hKept]
      exact hFront.append decodable_slash

/-- What the end of a segment adds or removes cuts no triplet. -/
theorem decodable_endSegment {stack : SegmentStack} (h : Decodable stack.output) :
    Decodable stack.endSegment.seen := by
  unfold endSegment
  split_ifs with hZero hTwo hOne
  · have hSeen := h.append decodable_slash
    simpa [SegmentStack.seen, SegmentStack.output, written] using hSeen
  · have hPop := decodable_pop h
    simpa [SegmentStack.seen, SegmentStack.output] using hPop
  · have hSeen := h.append (decodable_dots stack.dots)
    simpa [SegmentStack.seen, SegmentStack.output, flush] using hSeen
  · simpa [SegmentStack.seen, SegmentStack.output] using h

/-- Whatever a text of whole triplets has been read up to, what is kept of it
stays a text that the rest completes. -/
theorem read_decodable {before after : Bytes} (h : Decodable (before ++ after)) :
    Decodable ((read before).seen ++ after) := by
  induction before using List.reverseRecOn generalizing after with
  | nil => exact h
  | append_singleton before c ih =>
      rw [List.append_assoc, List.singleton_append] at h
      have hSeen := ih h
      rw [read_concat]
      by_cases hDot : c = dot
      · subst hDot
        have hSame : ((read before).step dot).seen = (read before).seen ++ [dot] := by
          simp [step, SegmentStack.seen, SegmentStack.output, List.replicate_succ']
        rw [hSame, List.append_assoc, List.singleton_append]
        exact hSeen
      by_cases hSlash : c = slash
      · subst hSlash
        have hOutput : Decodable (read before).output := by
          rw [SegmentStack.seen, List.append_assoc] at hSeen
          cases hDots : (read before).dots with
          | zero =>
              rw [hDots] at hSeen
              exact Decodable.of_boundary (by decide) hSeen
          | succ n =>
              rw [hDots, List.replicate_succ, List.cons_append] at hSeen
              exact Decodable.of_boundary (by decide) hSeen
        have hAfter : Decodable after := (decodable_cons (by decide)).mp hSeen.of_append_right
        exact (decodable_endSegment hOutput).append hAfter
      · have hSame : ((read before).step c).seen = (read before).seen ++ [c] := by
          simp [step, hDot, hSlash, write, SegmentStack.seen, SegmentStack.output]
        rw [hSame, List.append_assoc, List.singleton_append]
        exact hSeen

/-! The locals hold the stack as long as no offset is wrong that is used. -/

/-- Nothing is kept behind the last slash only there. -/
theorem read_start {text : Bytes} (hTail : (read text).tail = []) (hDots : (read text).dots = 0) :
    text = [] ∨ ∃ front, text = front ++ [slash] := by
  induction text using List.reverseRecOn with
  | nil => exact .inl rfl
  | append_singleton front c =>
      right
      rw [read_concat] at hTail hDots
      by_cases hDot : c = dot
      · rw [step, if_pos hDot] at hDots
        exact absurd hDots (Nat.succ_ne_zero _)
      by_cases hSlash : c = slash
      · exact ⟨front, by rw [hSlash]⟩
      · rw [step, if_neg hDot, dif_neg hSlash] at hTail
        simp [write] at hTail

/-- The locals after a part of a path. An offset is stale when ".." has removed
the only segment that was kept. -/
structure Tracked (before : Bytes) (stale : List Int) (st : NormalizeState) : Prop where
  represents : Represents stale st (read before)
  cleared : stale = [] ∨ stale.length = 1 ∧ [] ∉ (read before).segments ∧
    ∃ front behind, before = front ++ slash :: behind ∧ (read front).RemovesOnly

/-- At most one stale offset is tracked. -/
theorem Tracked.stale_length {before : Bytes} {stale : List Int} {st : NormalizeState} (h : Tracked before stale st) :
    stale.length ≤ 1 := by
  rcases h.cleared with rfl | ⟨hLength, _⟩
  · exact Nat.zero_le 1
  · exact Nat.le_of_eq hLength

/-- A character that leaves the offsets as they are. -/
theorem Tracked.keep {before : Bytes} {stale : List Int} {st next : NormalizeState} {c : UInt8}
    (h : Tracked before stale st) (hNext : Represents stale next (read (before ++ [c])))
    (hNil : stale ≠ [] → [] ∈ (read (before ++ [c])).segments → [] ∈ (read before).segments) :
    Tracked (before ++ [c]) stale next := by
  refine ⟨hNext, ?_⟩
  rcases h.cleared with hStale | ⟨hLength, hSegments, front, behind, rfl, hRemoves⟩
  · exact .inl hStale
  · have hNe : stale ≠ [] := List.ne_nil_of_length_eq_add_one hLength
    exact .inr ⟨hLength, fun hMem => hSegments (hNil hNe hMem), front, behind ++ [c], by simp, hRemoves⟩

section

variable {path before after : Bytes} {stale : List Int} {st : NormalizeState}
  (hPath : path = before ++ slash :: after) (h : Tracked before stale st)

include hPath h

/-- A slash that ends a kept segment or none. -/
theorem Tracked.slash_kept (hSingle : SingleSlashed path) (hDots : (read before).dots ≠ 2) :
    ∃ next, normalizeStep st slash = .ok next ∧ Tracked (before ++ [slash]) stale next := by
  obtain ⟨next, hNext, hRep⟩ := h.represents.slash hDots
  have hRead : read (before ++ [slash]) = (read before).endSegment := by
    rw [read_concat, step, if_neg (by decide), dif_pos rfl]
  refine ⟨next, hNext, h.keep (hRead ▸ hRep) ?_⟩
  intro hStale hMem
  rw [hRead, endSegment, if_neg hDots] at hMem
  split_ifs at hMem with hZero
  · rcases List.mem_cons.mp hMem with hTail | hMem
    · exfalso
      rcases read_start hTail.symm hZero with rfl | ⟨front, rfl⟩
      · obtain ⟨_, _, front, behind, hFront, _⟩ := h.cleared.resolve_left hStale
        simp at hFront
      · exact hSingle front after (by simp [hPath])
    · exact hMem
  · exact hMem
  · exact hMem

/-- A slash behind "..". -/
theorem Tracked.slash_pop (hOnce : ClearsOnce path) (hTwo : (read before).dots = 2) :
    ∃ stale' next, normalizeStep st slash = .ok next ∧ Tracked (before ++ [slash]) stale' next := by
  have hRead : read (before ++ [slash]) = (read before).endSegment := by
    rw [read_concat, step, if_neg (by decide), dif_pos rfl]
  have hSegments : (read (before ++ [slash])).segments = pop (read before).segments := by
    rw [hRead, endSegment, if_neg (by omega), if_pos hTwo]
  have hNil : [] ∈ (read (before ++ [slash])).segments → [] ∈ (read before).segments := by
    rw [hSegments]
    exact mem_of_mem_pop
  rcases hCase : (read before).segments with _ | ⟨segment, _ | ⟨following, rest⟩⟩
  · obtain ⟨next, hNext, hRep⟩ := h.represents.pop_none hTwo hCase h.stale_length
    exact ⟨stale, next, hNext, h.keep (hRead ▸ hRep) fun _ => hNil⟩
  · by_cases hRoot : segment = []
    · subst hRoot
      obtain rfl : stale = [] := h.cleared.resolve_right fun hStale => hStale.2.1 (by simp [hCase])
      obtain ⟨next, hNext, hRep⟩ := h.represents.pop_root hTwo hCase
      exact ⟨[], next, hNext, hRead ▸ hRep, .inl rfl⟩
    · have hRemoves : (read before).RemovesOnly := ⟨hTwo, segment, hCase, hRoot⟩
      have hStale : stale = [] := by
        apply h.cleared.resolve_right
        rintro ⟨_, _, front, behind, rfl, hFront⟩
        exact hOnce.once front behind after (by simp [hPath]) hFront hRemoves
      subst hStale
      obtain ⟨next, hNext, hRep⟩ := h.represents.pop_only hTwo hCase hRoot
      refine ⟨offsets [segment], next, hNext, hRead ▸ hRep, .inr ⟨rfl, ?_, before, [], rfl, hRemoves⟩⟩
      rw [hSegments, hCase, pop, if_neg hRoot]
      exact List.not_mem_nil
  · have hShort := hOnce.short before after segment following rest hPath hTwo hCase
    obtain ⟨next, hNext, hRep⟩ := h.represents.pop_last hTwo hCase hShort
    exact ⟨stale, next, hNext, h.keep (hRead ▸ hRep) fun _ => hNil⟩

end

/-- One character. -/
theorem Tracked.step {path before after : Bytes} {c : UInt8} {stale : List Int} {st : NormalizeState}
    (hSingle : SingleSlashed path) (hOnce : ClearsOnce path) (hPath : path = before ++ c :: after)
    (h : Tracked before stale st) :
    ∃ stale' next, normalizeStep st c = .ok next ∧ Tracked (before ++ [c]) stale' next := by
  by_cases hDot : c = dot
  · subst hDot
    obtain ⟨next, hNext, hRep⟩ := h.represents.dot
    refine ⟨stale, next, hNext, h.keep (read_concat before dot ▸ hRep) ?_⟩
    intro _ hMem
    rwa [read_concat] at hMem
  by_cases hSlash : c = slash
  · subst hSlash
    by_cases hTwo : (read before).dots = 2
    · exact h.slash_pop hPath hOnce hTwo
    · exact ⟨stale, h.slash_kept hPath hSingle hTwo⟩
  · obtain ⟨next, hNext, hRep⟩ := h.represents.write hDot hSlash
    refine ⟨stale, next, hNext, h.keep (read_concat before c ▸ hRep) ?_⟩
    intro _ hMem
    rw [read_concat, SegmentStack.step, if_neg hDot, dif_neg hSlash] at hMem
    exact hMem

/-- The locals at every place of a path. -/
theorem tracked_read {path : Bytes} (hSingle : SingleSlashed path) (hOnce : ClearsOnce path) {before after : Bytes}
    (hPath : path = before ++ after) :
    ∃ stale st, before.foldlM normalizeStep ⟨[], [], 0⟩ = .ok st ∧ Tracked before stale st := by
  induction before using List.reverseRecOn generalizing after with
  | nil => exact ⟨[], _, rfl, represents_empty, .inl rfl⟩
  | append_singleton before c ih =>
      rw [List.append_assoc, List.singleton_append] at hPath
      obtain ⟨stale, st, hRun, hTracked⟩ := ih hPath
      obtain ⟨stale', next, hNext, hAfter⟩ := hTracked.step hSingle hOnce hPath
      refine ⟨stale', next, ?_, hAfter⟩
      simp only [List.foldlM_append, hRun, List.foldlM_cons, List.foldlM_nil, bind, Except.bind, hNext]
      rfl

/-- The triplets stay whole. -/
theorem seen_decodable {path : Bytes} (hPath : Decodable path) (hSingle : SingleSlashed path)
    (hOnce : ClearsOnce path) {last : NormalizeState} (h : path.foldlM normalizeStep ⟨[], [], 0⟩ = .ok last) :
    Decodable last.seen := by
  obtain ⟨stale, st, hRun, hTracked⟩ := tracked_read hSingle hOnce (List.append_nil path).symm
  cases h.symm.trans hRun
  have hSeen : last.seen = (read path).seen := by
    rw [NormalizeState.seen, hTracked.represents.output, hTracked.represents.dots]
    rfl
  have hRead := @read_decodable path [] (by rwa [List.append_nil])
  rwa [List.append_nil, ← hSeen] at hRead

/-! ### The components -/

/-- A normalized triplet is a plain character or a triplet in capitals. -/
theorem decodable_normalTriplet {high low : UInt8} (hHigh : hexdig high = true) (hLow : hexdig low = true) :
    Decodable (normalTriplet id high low) := by
  have hUpper {c : UInt8} (hc : hexdig c = true) : upperHexdig (toupper c) = true := upperHexdig_toupper c hc
  unfold normalTriplet
  split_ifs with hKept
  · exact (decodable_triplet (hUpper hHigh) (hUpper hLow)).mpr (decodable_of_no_percent (by simp))
  · apply decodable_of_no_percent
    intro hMem
    rw [List.mem_singleton, id] at hMem
    simp [← hMem] at hKept

/-- Percent-decoding leaves whole triplets in upper case. -/
theorem decodable_percentNormal {plain : UInt8 → Bool} (hPercent : plain percent = false) {text : Bytes}
    (h : text ∈ Grammar.encodedText plain) : Decodable (percentNormal id text) := by
  refine @encodedText_induction plain (fun text => Decodable (percentNormal id text))
    (decodable_of_no_percent (by simp [percentNormal])) ?_ ?_ text h
  · intro c rest hc ih
    have hNe : c ≠ percent := by
      rintro rfl
      rw [hPercent] at hc
      cases hc
    rw [percentNormal_plain hNe]
    exact (decodable_cons hNe).mpr ih
  · intro high low rest hHigh hLow ih
    rw [percentNormal_triplet]
    exact (decodable_normalTriplet hHigh hLow).append ih

/-- The lowered host is decodable, as its triplets stay in capitals. -/
theorem decodable_lowered {plain : UInt8 → Bool} (hPercent : plain percent = false) {text : Bytes}
    (h : text ∈ Grammar.encodedText plain) : Decodable (lowered text) := by
  refine @encodedText_induction plain (fun text => Decodable (lowered text))
    (decodable_of_no_percent (by simp [lowered])) ?_ ?_ text h
  · intro c rest hc ih
    have hNe : c ≠ percent := by
      rintro rfl
      rw [hPercent] at hc
      cases hc
    rw [lowered_plain hNe]
    exact (decodable_cons fun hEq => hNe (tolower_percent c hEq)).mpr ih
  · intro high low rest hHigh hLow ih
    rw [lowered_triplet]
    exact (decodable_normalTriplet hHigh hLow).append ih

/-- The components that are stored with triplets in them. -/
def encodedComponents (u : Uri) : List Bytes := [u.userinfo, u.host, u.path, u.query, u.fragment]

theorem decodable_toString {port : Int} (h : 0 ≤ port) : Decodable (authority.toString_ port) := by
  obtain ⟨n, rfl⟩ := Int.eq_ofNat_of_zero_le h
  exact decodable_of_no_percent fun hMem => absurd ((toString_reads n).1 percent hMem) (by decide)

theorem decodable_unit {c : UInt8} (hc : c ≠ percent) : Decodable [c] :=
  (decodable_cons hc).mpr (decodable_of_no_percent (by simp))

theorem decodable_nil : Decodable [] := decodable_of_no_percent (by simp)

section

variable {u : Uri} (h : ∀ component ∈ encodedComponents u, Decodable component)

include h

/-- The authority is put together from decodable parts. -/
theorem decodable_authority : Decodable (authority u) := by
  have hUserinfo := h u.userinfo (by simp [encodedComponents])
  have hHost := h u.host (by simp [encodedComponents])
  unfold authority
  refine (Decodable.append ?_ hHost).append ?_
  · split_ifs
    · exact hUserinfo.append (decodable_unit (by decide))
    · exact decodable_nil
  · split_ifs with hPort
    · exact (decodable_cons (by decide)).mpr (decodable_toString hPort.1)
    · exact decodable_nil

/-- The hierarchical part is put together from decodable parts. -/
theorem decodable_hierPart : Decodable (hierPart u) := by
  unfold hierPart
  refine Decodable.append ?_ (h u.path (by simp [encodedComponents]))
  split_ifs
  · exact (decodable_cons (by decide)).mpr ((decodable_cons (by decide)).mpr
      ((decodable_authority h).append decodable_slash))
  · exact (decodable_cons (by decide)).mpr ((decodable_cons (by decide)).mpr
      ((decodable_authority h).append decodable_nil))
  · exact decodable_nil

theorem decodable_absStr (hScheme : percent ∉ u.scheme) : Decodable (absStr u) := by
  unfold absStr
  refine ((Decodable.append ?_ ?_).append (h u.path (by simp [encodedComponents]))).append ?_
  · split_ifs
    · exact (decodable_of_no_percent hScheme).append (decodable_unit (by decide))
    · exact decodable_nil
  · split_ifs
    · exact (decodable_cons (by decide)).mpr ((decodable_cons (by decide)).mpr
        ((decodable_authority h).append decodable_slash))
    · exact (decodable_cons (by decide)).mpr ((decodable_cons (by decide)).mpr
        ((decodable_authority h).append decodable_nil))
    · exact decodable_nil
  · split_ifs
    · exact (decodable_cons (by decide)).mpr (h u.query (by simp [encodedComponents]))
    · exact decodable_nil

/-- The whole text is decodable, for a scheme without percent signs. -/
theorem decodable_str (hScheme : percent ∉ u.scheme) : Decodable (str u) := by
  unfold str
  refine (decodable_absStr h hScheme).append ?_
  split_ifs
  · exact (decodable_cons (by decide)).mpr (h u.fragment (by simp [encodedComponents]))
  · exact decodable_nil

end

/-- What the `norm_` getters of an object decode. -/
def normalized (u : Uri) : List Bytes := encodedComponents u ++ [authority u, hierPart u, absStr u, str u]

/-- All observers give decodable texts where the stored components are decodable. -/
theorem decodable_normalized {u : Uri} (h : ∀ component ∈ encodedComponents u, Decodable component)
    (hScheme : percent ∉ u.scheme) : ∀ text ∈ normalized u, Decodable text := by
  intro text hText
  rcases List.mem_append.mp hText with hText | hText
  · exact h text hText
  · simp only [List.mem_cons, List.not_mem_nil, or_false] at hText
    rcases hText with rfl | rfl | rfl | rfl
    · exact decodable_authority h
    · exact decodable_hierPart h
    · exact decodable_absStr h hScheme
    · exact decodable_str h hScheme

/-- A scheme of the grammar has no percent sign. -/
theorem scheme_no_percent {scheme : Bytes} (h : scheme ∈ Grammar.scheme) : percent ∉ scheme := by
  obtain ⟨c, rest, rfl, hc, hRest⟩ := mem_scheme.mp h
  rw [List.mem_cons, not_or]
  constructor
  · rintro rfl
    exact absurd hc (by decide)
  · intro hMem
    exact absurd (hRest percent hMem) (by decide)

/-- The components of an accepted text. -/
theorem value_decodable {parts : Parts} (h : parts.Accepted) {ports : SchemePorts} {path : Bytes}
    (hPath : Decodable path) : ∀ component ∈ encodedComponents (parts.value ports path), Decodable component := by
  have hAuthority (authority : AuthorityText) (hSome : parts.authority = some authority) : authority.Accepted := by
    have hHier := h.hier
    rw [hSome] at hHier
    cases hHier with
    | authority hParts _ => exact hParts
  simp only [encodedComponents, Parts.value, List.forall_mem_cons, List.not_mem_nil, false_imp_iff, implies_true, and_true]
  refine ⟨?_, ?_, hPath, ?_, decodable_percentNormal (by decide) h.fragment⟩
  · cases hSome : parts.authority with
    | none => exact decodable_nil
    | some authority =>
        cases hUserinfo : authority.userinfo with
        | none => simpa [hUserinfo, percentNormal] using decodable_nil
        | some userinfo =>
            have hMem := (hAuthority authority hSome).userinfo userinfo hUserinfo
            simpa [hUserinfo] using decodable_percentNormal encodable_userinfoPlain.percent hMem
  · cases hSome : parts.authority with
    | none => exact decodable_nil
    | some authority =>
        exact decodable_lowered encodable_hostPlain.percent (hAuthority authority hSome).host.encoded
  · cases hQuery : parts.query with
    | none => exact decodable_nil
    | some query => exact decodable_percentNormal encodable_queryPlain.percent (h.query query hQuery)

/-- The texts that the `norm_` getters decode have whole triplets. -/
def AllRestorable (u : Uri) : Prop := ∀ text ∈ normalized u, Restorable text

/-- The getters decode texts with whole triplets, if ".." removes the only segment that is kept
of the path at most once. -/
theorem parsed_restorable {ports : SchemePorts} {s : Bytes} {u v : Uri} {prior errno : Imperr}
    (h : parse ports s (some u) prior = .ok (true, some v, errno))
    (hOnce : ∀ parts : Parts, parts.Accepted → s = parts.text → ClearsOnce (percentNormal id parts.path)) :
    AllRestorable v := by
  suffices hAll : (∀ component ∈ encodedComponents v, Decodable component) ∧ percent ∉ v.scheme by
    exact fun text hText => restorable_of_decodable (decodable_normalized hAll.1 hAll.2 text hText)
  by_cases hs : s = []
  · subst hs
    cases h
    simp [encodedComponents, clear, decodable_nil]
  · obtain ⟨parts, hText, hParts, hValue⟩ := parse_split hs h
    obtain ⟨path, hPath, hSome⟩ := hValue u rfl
    obtain rfl := Option.some.inj hSome
    obtain ⟨last, hRun, rfl⟩ := pathNormalize_ok hPath
    have hDecoded := decodable_percentNormal encodable_pathPlain.percent hParts.hier.path_encoded
    have hSingle := percentNormal_singleSlashed encodable_pathPlain.percent hParts.hier.path_encoded
      hParts.hier.path_slashed
    refine ⟨value_decodable hParts (seen_decodable hDecoded hSingle (hOnce parts hParts hText) hRun), ?_⟩
    exact scheme_no_percent (scheme_tolower hParts.scheme)

/-- No slash is decoded. -/
theorem slash_of_percentNormal {plain : UInt8 → Bool} (hPercent : plain percent = false) {text : Bytes}
    (h : text ∈ Grammar.encodedText plain) : slash ∈ percentNormal id text → slash ∈ text := by
  refine @encodedText_induction plain (fun text => slash ∈ percentNormal id text → slash ∈ text)
    (fun hMem => absurd hMem (by simp [percentNormal])) ?_ ?_ text h
  · intro c rest hc ih hMem
    have hNe : c ≠ percent := by
      rintro rfl
      rw [hPercent] at hc
      cases hc
    rw [percentNormal_plain hNe] at hMem
    rcases List.mem_cons.mp hMem with hHead | hRest
    · exact List.mem_cons.mpr (.inl hHead)
    · exact List.mem_cons_of_mem c (ih hRest)
  · intro high low rest hHigh hLow ih hMem
    rw [percentNormal_triplet] at hMem
    have hNot : slash ∉ normalTriplet id high low := by
      have hUpper {c : UInt8} (hc : hexdig c = true) : slash ≠ toupper c := by
        rintro hEq
        have hDigit := upperHexdig_toupper c hc
        rw [← hEq] at hDigit
        cases hDigit
      unfold normalTriplet
      split_ifs with hKept
      · have hPercentNe : slash ≠ percent := by decide
        simp [hUpper hHigh, hUpper hLow, hPercentNe]
      · intro hByte
        rw [List.mem_singleton, id] at hByte
        rw [← hByte] at hKept
        exact hKept rfl
    have hRest := (List.mem_append.mp hMem).resolve_left hNot
    exact List.mem_cons_of_mem _ (List.mem_cons_of_mem _ (List.mem_cons_of_mem _ (ih hRest)))

/-- Without a slash no segment is ended, so none is removed. -/
theorem clearsOnce_of_no_slash {path : Bytes} (h : slash ∉ path) : ClearsOnce path := by
  constructor
  · rintro before middle after rfl
    exact absurd (by simp) h
  · rintro before after last next rest rfl
    exact absurd (by simp) h

/-- The text "a:b%2fc#%25". -/
def slashTriplet : Bytes := [0x61, colon, 0x62, percent, 0x32, 0x66, 0x63, hash, percent, 0x32, 0x35]

theorem parsed_restorable_slashTriplet :
    AllRestorable ⟨[0x61], [], [], [0x62, percent, 0x32, 0x46, 0x63], [], [percent, 0x32, 0x35], -1, false, false⟩ := by
  have hRun : parse ⟨[], [], -1⟩ slashTriplet (some empty) .success = .ok (true, some ⟨[0x61], [], [],
      [0x62, percent, 0x32, 0x46, 0x63], [], [percent, 0x32, 0x35], -1, false, false⟩, .success) := by
    decide +kernel
  refine parsed_restorable hRun ?_
  intro parts hParts hText
  have hNone : slash ∉ parts.text := hText ▸ by decide
  apply clearsOnce_of_no_slash
  intro hMem
  have hPath := slash_of_percentNormal encodable_pathPlain.percent hParts.hier.path_encoded hMem
  exact hNone (by simp [Parts.text, hPath])

/-- The text "foo:aa/../x%2Fyy/../z". -/
def erasedTriplet : Bytes := ascii "foo:aa/../x%2Fyy/../z"

/-- The first ".." leaves the offset behind "aa/", where the second one cuts
"%2F" apart. The decoder takes "z" for its second digit. -/
theorem erasedTriplet_torn :
    ∃ v, parse ⟨[], [], -1⟩ erasedTriplet (some empty) .success = .ok (true, some v, .success) ∧
      v.path = ascii "x%2z" ∧ ¬Decodable v.path ∧ ¬NibblesRead v.path .plain := by
  have hRun : parse ⟨[], [], -1⟩ erasedTriplet (some empty) .success =
      .ok (true, some ⟨ascii "foo", [], [], ascii "x%2z", [], [], -1, false, false⟩, .success) := by
    decide +kernel
  refine ⟨_, hRun, rfl, ?_, ?_⟩
  · intro h
    obtain ⟨high, low, rest, hEq, _, hLow⟩ := h [0x78] [0x32, 0x7A] (by decide)
    cases hEq
    cases hLow
  · intro h
    obtain ⟨_, hSecond, _⟩ : upperHexdig 0x32 = true ∧ upperHexdig 0x7A = true ∧ PercentState.plain = .plain := h
    cases hSecond

end ImpactSockets.Uri
