import ImpactSockets.Rfc.Uri.PathNormal
import ImpactSockets.Rfc.Uri.Triplets

/-! The texts that the parsers of the components read, and what they make of
them. -/
namespace ImpactSockets.Uri

open Abnf AbnfOps Ascii
open scoped Computability

/-- The context in which `before` has been read and `rest` has not. -/
def place (before rest : Bytes) (result : Option Uri) (errno : Imperr) : Context :=
  ⟨before.length, before ++ rest, result, errno⟩

/-- The parser reads `text` in front of `rest`, and makes `v` of the result `u`. -/
def Reads (parser : Context → Exec Parsed) (text rest : Bytes) (u v : Uri) : Prop :=
  ∀ before, before ≠ [] → ∀ (result : Option Uri) (errno : Imperr), ∃ errno',
    parser (place before (text ++ rest) (result.map fun _ => u) errno) =
      .ok (true, place (before ++ text) rest (result.map fun _ => v) errno')

/-! ### Runs that succeed -/

/-- A sequence succeeds with both of its parts. -/
theorem bind_ok {α β : Type} {run : Exec α} {next : α → Exec β} {b : β} :
    run >>= next = .ok b ↔ ∃ a, run = .ok a ∧ next a = .ok b := by
  cases run with
  | error fault => exact iff_of_false nofun nofun
  | ok a =>
      constructor
      · exact fun h => ⟨a, rfl, h⟩
      · rintro ⟨_, hRun, h⟩
        cases hRun
        exact h

/-- The second parser is called after a success of the first one only. -/
theorem unless_failed {ok : Bool} {ctx : Context} {next : Exec Parsed} {last : Context} :
    (if !ok then .ok (false, ctx) else next) = Except.ok (true, last) ↔ ok = true ∧ next = .ok (true, last) := by
  cases ok <;> simp

theorem fail_ne {ctx last : Context} {errno : Imperr} : ctx.fail errno ≠ .ok (true, last) := by
  intro h
  cases h

/-! ### Positions -/

/-- The next character. -/
theorem readAt_place (before rest : Bytes) (c : UInt8) :
    readAt (before ++ c :: rest) before.length = .ok c := by
  simp [readAt]

/-- The text from one position to a later one. -/
theorem cut_place (before text rest : Bytes) :
    cut (before ++ (text ++ rest)) before.length (before.length + text.length) = .ok text := by
  rw [cut, if_pos (by simp), List.drop_left, Nat.add_sub_cancel_left, List.take_left]

theorem drop_place (before rest : Bytes) (c : UInt8) :
    (before ++ c :: rest).drop (before.length + 1) = rest := by
  simp [List.drop_append]

theorem place_at_end {before rest : Bytes} {result : Option Uri} {errno : Imperr} :
    (place before rest result errno).data.length ≤ (place before rest result errno).currentIdx ↔
      rest = [] := by
  simp only [place, List.length_append, ← List.length_eq_zero_iff]
  omega

/-- The next character, if there is one, is not in the class. -/
def Boundary (known : UInt8 → Bool) (rest : Bytes) : Prop := ∀ c ∈ rest.head?, known c = false

theorem boundary_nil (known : UInt8 → Bool) : Boundary known [] := by
  simp [Boundary]

theorem boundary_cons {known : UInt8 → Bool} {c : UInt8} {rest : Bytes} :
    Boundary known (c :: rest) ↔ known c = false := by
  simp [Boundary]

theorem takeWhile_of_boundary {known : UInt8 → Bool} {text rest : Bytes}
    (hText : ∀ c ∈ text, known c = true) (hRest : Boundary known rest) :
    (text ++ rest).takeWhile known = text := by
  rw [List.takeWhile_append_of_pos hText]
  cases rest with
  | nil => simp
  | cons c rest => simp [boundary_cons.mp hRest]

/-- A text is cut at a boundary in one way. -/
theorem cut_unique {known : UInt8 → Bool} {text rest text' rest' : Bytes}
    (hText : ∀ c ∈ text, known c = true) (hRest : Boundary known rest)
    (hText' : ∀ c ∈ text', known c = true) (hRest' : Boundary known rest')
    (h : text ++ rest = text' ++ rest') : text = text' ∧ rest = rest' := by
  have hEq := congrArg (List.takeWhile known) h
  rw [takeWhile_of_boundary hText hRest, takeWhile_of_boundary hText' hRest'] at hEq
  subst hEq
  exact ⟨rfl, List.append_cancel_left h⟩

/-- Every text is one of a class in front of a boundary. -/
theorem split_at_boundary (known : UInt8 → Bool) (s : Bytes) :
    ∃ text rest, s = text ++ rest ∧ (∀ c ∈ text, known c = true) ∧ Boundary known rest := by
  refine ⟨s.takeWhile known, s.dropWhile known, List.takeWhile_append_dropWhile.symm, ?_, ?_⟩
  · exact List.all_eq_true.mp List.all_takeWhile
  · intro c hc
    have hNot := List.head?_dropWhile_not known s
    rw [Option.mem_def.mp hc] at hNot
    simpa using hNot

/-- A scan ends at the boundary. -/
theorem scanWhile_of_boundary {known : UInt8 → Bool} {text rest : Bytes}
    (hText : ∀ c ∈ text, known c = true) (hRest : Boundary known rest) (i : Nat) :
    scanWhile known (text ++ rest) i = i + text.length := by
  induction text generalizing i with
  | nil =>
      cases rest with
      | nil => rfl
      | cons c rest => simp [scanWhile, boundary_cons.mp hRest]
  | cons c text ih =>
      rw [List.forall_mem_cons] at hText
      rw [List.cons_append, scanWhile, if_pos hText.1, ih hText.2, List.length_cons]
      omega

/-! ### Encoded texts -/

/-- The characters of a class of which encoded texts are made: all that triplets
need but "%", and nothing that formatted input skips. -/
structure Encodable (plain : UInt8 → Bool) : Prop where
  percent : plain percent = false
  hexdig : ∀ c, hexdig c = true → plain c = true
  space : ∀ c, isspace c = true → plain c = false

/-- White space is never among encodable characters. -/
theorem visible_of_encodable {plain : UInt8 → Bool} (hPlain : Encodable plain) {text : Bytes}
    (hText : ∀ c ∈ text, plain c = true ∨ c = percent) : visible text = text := by
  refine visible_of_no_space fun c hc => ?_
  rcases hText c hc with hc | rfl
  · by_contra hSpace
    rw [hPlain.space c (by simpa using hSpace)] at hc
    cases hc
  · rfl

/-- Decoding succeeds on exactly the encoded texts. -/
theorem percentDecode_iff {plain : UInt8 → Bool} (hPlain : Encodable plain) {text : Bytes}
    (hText : ∀ c ∈ text, plain c = true ∨ c = percent) (lowerCase : Bool) (errno : Imperr) :
    (percentDecode text lowerCase errno).ok = true ↔ text ∈ Grammar.encodedText plain := by
  rw [percentDecode_ok, visible_of_encodable hPlain hText,
    mem_encodedText_iff hPlain.percent hPlain.hexdig lowerCase, and_iff_right hText]

theorem encodedText_chars {plain : UInt8 → Bool} (hPlain : Encodable plain) {text : Bytes}
    (h : text ∈ Grammar.encodedText plain) : ∀ c ∈ text, plain c = true ∨ c = percent :=
  ((mem_encodedText_iff hPlain.percent hPlain.hexdig false text).mp h).1

/-- A text of some characters is one of more characters. -/
theorem encodedText_mono {plain wider : UInt8 → Bool} (hPlain : Encodable plain) (hWider : Encodable wider)
    (h : ∀ c, plain c = true → wider c = true) {text : Bytes} (hText : text ∈ Grammar.encodedText plain) :
    text ∈ Grammar.encodedText wider := by
  obtain ⟨hChars, hDecode⟩ := (mem_encodedText_iff hPlain.percent hPlain.hexdig false text).mp hText
  exact (mem_encodedText_iff hWider.percent hWider.hexdig false text).mpr
    ⟨fun c hc => (hChars c hc).imp_left (h c), hDecode⟩

/-- Characters of the class may stand in front of an encoded text. -/
theorem append_mem_encodedText {plain : UInt8 → Bool} (hPlain : Encodable plain) {root text : Bytes}
    (hRoot : ∀ c ∈ root, plain c = true) :
    root ++ text ∈ Grammar.encodedText plain ↔ text ∈ Grammar.encodedText plain := by
  induction root with
  | nil => rfl
  | cons c root ih =>
      rw [List.forall_mem_cons] at hRoot
      have hNe : c ≠ Ascii.percent := by
        rintro rfl
        rw [hPlain.percent] at hRoot
        cases hRoot.1
      have hMem := mem_encodedText_iff hPlain.percent hPlain.hexdig false
      rw [← ih hRoot.2, hMem, hMem, List.cons_append, List.forall_mem_cons, decodeLoop_plain hNe,
        Option.isSome_map, and_iff_right (Or.inl hRoot.1)]

/-- What is stored of an encoded text. -/
theorem percentDecode_normal {plain : UInt8 → Bool} (hPlain : Encodable plain) {text : Bytes}
    (h : text ∈ Grammar.encodedText plain) (errno : Imperr) :
    (percentDecode text false errno).str = percentNormal id text := by
  refine percentDecode_str ?_ errno
  rw [visible_of_encodable hPlain (encodedText_chars hPlain h)]
  exact decodeLoop_eq_percentNormal hPlain.percent h

theorem percentDecode_lowered {plain : UInt8 → Bool} (hPlain : Encodable plain) {text : Bytes}
    (h : text ∈ Grammar.encodedText plain) (errno : Imperr) :
    (percentDecode text true errno).str = lowered text := by
  refine percentDecode_str ?_ errno
  rw [visible_of_encodable hPlain (encodedText_chars hPlain h)]
  exact decodeLoop_eq_lowered hPlain.percent h

end ImpactSockets.Uri
