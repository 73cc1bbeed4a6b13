import Mathlib.Data.List.Infix
import ImpactSockets.Utils.AbnfOps

/-! The `std::istringstream` that the grammar recogniser of `ABNF_Parser` reads. -/
namespace ImpactSockets.AbnfParser

/-- The text of a stream, the position in it, `eofbit` and `failbit`. -/
structure Istream where
  text : Bytes
  pos : Nat
  eof : Bool
  fail : Bool
deriving DecidableEq, Repr

namespace Istream

def good (s : Istream) : Bool := !s.eof && !s.fail

/-- `EOF` as a `char`, which is what every caller makes of it. -/
def eofChar : UInt8 := 0xFF

def get (s : Istream) : UInt8 × Istream :=
  if s.good then
    match s.text[s.pos]? with
    | some c => (c, { s with pos := s.pos + 1 })
    | none => (eofChar, { s with eof := true, fail := true })
  else (eofChar, { s with fail := true })

def peek (s : Istream) : UInt8 × Istream :=
  if s.good then
    match s.text[s.pos]? with
    | some c => (c, s)
    | none => (eofChar, { s with eof := true })
  else (eofChar, { s with fail := true })

/-- The position, or `none` for -1. -/
def tellg (s : Istream) : Option Nat × Istream :=
  if s.good then (some s.pos, s) else (none, { s with fail := true })

def clear (s : Istream) : Istream := { s with eof := false, fail := false }

/-- `seekg` from the beginning. It leaves the position where it is if it fails. -/
def seekg (offset : Option Nat) (s : Istream) : Istream :=
  let s := { s with eof := false }
  if s.fail then s
  else
    match offset with
    | some pos => if pos ≤ s.text.length then { s with pos } else { s with fail := true }
    | none => { s with fail := true }

/-- `while (p(peek())) get();`, which turns at most as often as there are characters left. -/
def skipWhile (p : UInt8 → Bool) (s : Istream) : Istream := turns (s.text.length - s.pos + 1) s
where
  turns : Nat → Istream → Istream
  | 0, s => s
  | n + 1, s => if p s.peek.1 then turns n s.peek.2.get.2 else s.peek.2

/-- `a = get(); while (p(a)) a = get();` with the last character that was read. -/
def getWhile (p : UInt8 → Bool) (s : Istream) : UInt8 × Istream := turns (s.text.length - s.pos + 1) s
where
  turns : Nat → Istream → UInt8 × Istream
  | 0, s => (eofChar, s)
  | n + 1, s => if p s.get.1 then turns n s.get.2 else s.get

/-! ### What is left to read -/

/-- What has not been read yet. -/
def rest (s : Istream) : Bytes := s.text.drop s.pos

/-- The position is in the text, and at its end once the stream is not good any more. -/
structure Ok (s : Istream) : Prop where
  le : s.pos ≤ s.text.length
  ends : s.good = false → s.pos = s.text.length

/-- The same text with some of it left. -/
structure Reads (s t : Istream) (r : Bytes) : Prop where
  text : t.text = s.text
  ok : t.Ok
  rest : t.rest = r

variable {s t u : Istream} {r r' : Bytes} {p : UInt8 → Bool}

theorem Reads.refl (hs : s.Ok) : Reads s s s.rest := ⟨rfl, hs, rfl⟩

theorem Reads.trans (h : Reads s t r) (h' : Reads t u r') : Reads s u r' := ⟨h'.text.trans h.text, h'.ok, h'.rest⟩

/-- Nothing is left of a stream that is not good. -/
theorem rest_of_not_good (hs : s.Ok) (h : s.good = false) : s.rest = [] := by
  rw [rest, hs.ends h, List.drop_length]

/-- The position and what is left add up to the text. -/
theorem length_rest (hs : s.Ok) : s.pos + s.rest.length = s.text.length := by
  have := hs.le
  rw [rest, List.length_drop]
  omega

/-- The same text with no more of it left. -/
structure Moves (s t : Istream) : Prop where
  text : t.text = s.text
  ok : t.Ok
  suffix : t.rest <:+ s.rest

theorem Moves.refl (hs : s.Ok) : s.Moves s := ⟨rfl, hs, List.suffix_rfl⟩

theorem Moves.trans (h : s.Moves t) (h' : t.Moves u) : s.Moves u :=
  ⟨h'.text.trans h.text, h'.ok, h'.suffix.trans h.suffix⟩

/-- What is left does not grow. -/
theorem Moves.length_le (h : s.Moves t) : t.rest.length ≤ s.rest.length := h.suffix.length_le

/-- Reading down to a suffix moves on. -/
theorem Reads.moves (h : Reads s t r) (hSuffix : r <:+ s.rest) : s.Moves t := ⟨h.text, h.ok, h.rest.symm ▸ hSuffix⟩

theorem Moves.reads (h : s.Moves t) : Reads s t t.rest := ⟨h.text, h.ok, rfl⟩

/-- What is left tells the position. -/
theorem Moves.pos_add (h : s.Moves t) : t.pos + t.rest.length = s.text.length := by
  rw [← h.text]
  exact length_rest h.ok

/-- The position grows where less is left. -/
theorem Moves.pos_lt (h : s.Moves t) (hs : s.Ok) (hLess : t.rest.length < s.rest.length) : s.pos < t.pos := by
  have := length_rest hs
  have := h.pos_add
  omega

/-- The same is left exactly at the same position. -/
theorem Moves.rest_eq_iff (h : s.Moves t) (hs : s.Ok) : t.rest = s.rest ↔ t.pos = s.pos := by
  have hPos := length_rest hs
  have hPosOn := h.pos_add
  constructor
  · intro hRest
    rw [hRest] at hPosOn
    omega
  · intro hSame
    rw [rest, rest, h.text, hSame]

/-- What is left behind a prefix, by the position. -/
theorem Moves.rest_eq_append_iff (h : s.Moves t) (hs : s.Ok) {w : Bytes} :
    s.rest = w ++ t.rest ↔ w <+: s.rest ∧ t.pos = s.pos + w.length := by
  have hPos := length_rest hs
  have hPosOn := h.pos_add
  constructor
  · intro hText
    have hLength := congrArg List.length hText
    rw [List.length_append] at hLength
    exact ⟨hText ▸ List.prefix_append w t.rest, by omega⟩
  · rintro ⟨⟨x, hText⟩, hBehind⟩
    have hDrop : t.rest = s.rest.drop w.length := by rw [rest, rest, List.drop_drop, h.text, hBehind]
    rw [hDrop, ← hText, List.drop_left]

/-- A character that is not the end of the text has been read. -/
theorem length_tail_lt (h : r.headD eofChar ≠ eofChar) : r.tail.length < r.length := by
  cases r with
  | nil => exact absurd rfl h
  | cons c r => exact Nat.lt_succ_self _

/-- Nothing is left exactly at the end. -/
theorem rest_eq_nil_iff (hs : s.Ok) : s.rest = [] ↔ s.pos = s.text.length := by
  have := length_rest hs
  rw [← List.length_eq_zero_iff]
  omega

/-- `peek` gives the next character or EOF and leaves the text. -/
theorem peek_spec (hs : s.Ok) : s.peek.1 = s.rest.headD eofChar ∧ Reads s s.peek.2 s.rest := by
  unfold peek
  split_ifs with hGood
  · have hHead : s.text[s.pos]? = s.rest.head? := by rw [rest, List.head?_drop]
    cases hChar : s.rest with
    | nil =>
        simp only [hHead, hChar, List.head?_nil]
        exact ⟨rfl, rfl, ⟨hs.le, fun _ => (rest_eq_nil_iff hs).mp hChar⟩, hChar⟩
    | cons c r =>
        simp only [hHead, hChar, List.head?_cons]
        exact ⟨rfl, rfl, hs, hChar⟩
  · have hNil := rest_of_not_good hs (by simpa using hGood)
    exact ⟨by rw [hNil]; rfl, rfl, ⟨hs.le, fun _ => (rest_eq_nil_iff hs).mp hNil⟩, rfl⟩

/-- `get` gives the next character or EOF and takes it. -/
theorem get_spec (hs : s.Ok) : s.get.1 = s.rest.headD eofChar ∧ Reads s s.get.2 s.rest.tail := by
  unfold get
  split_ifs with hGood
  · have hHead : s.text[s.pos]? = s.rest.head? := by rw [rest, List.head?_drop]
    have hTail : s.rest.tail = s.text.drop (s.pos + 1) := by rw [rest, List.tail_drop]
    cases hChar : s.rest with
    | nil =>
        simp only [hHead, hChar, List.head?_nil]
        exact ⟨rfl, rfl, ⟨hs.le, fun _ => (rest_eq_nil_iff hs).mp hChar⟩, hChar⟩
    | cons c r =>
        have hLength := length_rest hs
        simp only [hHead, hChar, List.head?_cons, List.length_cons] at hLength ⊢
        refine ⟨rfl, rfl, ⟨?_, fun hNot => ?_⟩, ?_⟩
        · show s.pos + 1 ≤ s.text.length
          omega
        · exact absurd hGood (by simpa [good] using hNot)
        · show s.text.drop (s.pos + 1) = r
          rw [← hTail, hChar, List.tail_cons]
  · have hNil := rest_of_not_good hs (by simpa using hGood)
    exact ⟨by rw [hNil]; rfl, rfl, ⟨hs.le, fun _ => (rest_eq_nil_iff hs).mp hNil⟩, by rw [hNil]; exact hNil⟩

/-- `tellg` leaves the text. -/
theorem tellg_spec (hs : s.Ok) : Reads s s.tellg.2 s.rest := by
  unfold tellg
  split_ifs with hGood
  · exact Reads.refl hs
  · have hNil := rest_of_not_good hs (by simpa using hGood)
    exact ⟨rfl, ⟨hs.le, fun _ => (rest_eq_nil_iff hs).mp hNil⟩, rfl⟩

/-- Seeking back to where `tellg` was called. Where that was -1, the stream stays at the end. -/
theorem seekg_spec (hs : s.Ok) (h : Reads s t r) (hSuffix : r <:+ s.rest) :
    Reads s (t.clear.seekg s.tellg.1) s.rest := by
  unfold tellg
  split_ifs with hGood
  · have hLe : s.pos ≤ t.text.length := h.text ▸ hs.le
    have hSeek : t.clear.seekg (some s.pos) = { t.clear with pos := s.pos } := if_pos hLe
    rw [hSeek]
    refine ⟨h.text, ⟨hLe, fun hNot => by cases hNot⟩, ?_⟩
    show t.text.drop s.pos = s.rest
    rw [h.text, rest]
  · have hNil := rest_of_not_good hs (by simpa using hGood)
    rw [hNil, List.suffix_nil] at hSuffix
    rw [hSuffix] at h
    exact ⟨h.text, ⟨h.ok.le, fun _ => (rest_eq_nil_iff h.ok).mp h.rest⟩, h.rest.trans hNil.symm⟩

/-- The loop skips the longest run of such characters, one in each turn. -/
theorem skipWhile_spec (hs : s.Ok) (hp : p eofChar = false) : Reads s (s.skipWhile p) (s.rest.dropWhile p) := by
  have hTurns : ∀ n (s : Istream), s.Ok → s.rest.length < n → Reads s (skipWhile.turns p n s) (s.rest.dropWhile p) := by
    intro n
    induction n with
    | zero => exact fun s _ hLt => absurd hLt (by omega)
    | succ n ih =>
        intro s hs hLt
        obtain ⟨hChar, hPeek⟩ := peek_spec hs
        rw [skipWhile.turns, hChar]
        cases hRest : s.rest with
        | nil =>
            rw [hRest] at hPeek
            simpa [hp] using hPeek
        | cons c r =>
            rw [hRest] at hPeek hLt
            rw [List.headD_cons, List.dropWhile_cons]
            split_ifs
            · obtain ⟨-, hGet⟩ := get_spec hPeek.ok
              have hNext := hPeek.trans hGet
              rw [hPeek.rest, List.tail_cons] at hNext
              have hLess : r.length < n := by simpa using hLt
              have hTurns := ih _ hNext.ok (by rwa [hNext.rest])
              rw [hNext.rest] at hTurns
              exact hNext.trans hTurns
            · exact hPeek
  refine hTurns _ s hs ?_
  have := length_rest hs
  omega

/-- The loop skips the longest run of such characters and takes the one behind it. -/
theorem getWhile_spec (hs : s.Ok) (hp : p eofChar = false) :
    (s.getWhile p).1 = (s.rest.dropWhile p).headD eofChar ∧ Reads s (s.getWhile p).2 (s.rest.dropWhile p).tail := by
  have hTurns : ∀ n (s : Istream), s.Ok → s.rest.length < n →
      (getWhile.turns p n s).1 = (s.rest.dropWhile p).headD eofChar ∧
        Reads s (getWhile.turns p n s).2 (s.rest.dropWhile p).tail := by
    intro n
    induction n with
    | zero => exact fun s _ hLt => absurd hLt (by omega)
    | succ n ih =>
        intro s hs hLt
        obtain ⟨hChar, hGet⟩ := get_spec hs
        rw [getWhile.turns, hChar]
        cases hRest : s.rest with
        | nil =>
            rw [hRest] at hGet
            simpa [hp, hChar, hRest] using hGet
        | cons c r =>
            rw [hRest, List.tail_cons] at hGet
            rw [List.headD_cons, List.dropWhile_cons]
            split_ifs
            · have hLess : r.length < n := by simpa [hRest] using hLt
              obtain ⟨hLast, hTurns⟩ := ih _ hGet.ok (by rwa [hGet.rest])
              rw [hGet.rest] at hLast hTurns
              exact ⟨hLast, hGet.trans hTurns⟩
            · exact ⟨by rw [hChar, hRest], hGet⟩
  refine hTurns _ s hs ?_
  have := length_rest hs
  omega

end Istream

end ImpactSockets.AbnfParser
