import ImpactSockets.Rfc.Uri.LiteralTotal
import ImpactSockets.Rfc.Uri.HierPart

/-! What the parsers of the components do to the result and to `imp_errno`, on
every text and whether it is accepted or not. -/
namespace ImpactSockets.Uri

open AbnfOps Ascii Total

/-- What a parser does from one position on: what it returns, where it ends, and
what it makes of the result and of `imp_errno`. -/
structure Effect where
  ok : Bool
  currentIdx : Nat
  change : Uri → Uri
  errno : Imperr → Imperr

/-- The parser has this effect on every result, also on none. -/
def Does (parser : Context → Exec Parsed) (data : Bytes) (i : Nat) (effect : Effect) : Prop :=
  ∀ result errno, parser ⟨i, data, result, errno⟩ =
    .ok (effect.ok, ⟨effect.currentIdx, data, result.map effect.change, effect.errno errno⟩)

/-- `imp_errno` tells whether the parser has succeeded, if it did not hold an
error before. -/
structure Effect.Honest (effect : Effect) : Prop where
  failure : effect.ok = false → ∀ errno, effect.errno errno ≠ .success
  success : effect.ok = true → effect.errno .success = .success

/-- The change is the same whatever the flag for a default port is, and leaves
the flag. -/
def Effect.Blind (effect : Effect) : Prop :=
  ∀ u flag, effect.change { u with hasDefaultPort := flag } = { effect.change u with hasDefaultPort := flag }

/-- The effect of a parser that has nothing to do with ports. -/
structure Effect.Plain (data : Bytes) (effect : Effect) : Prop extends effect.Honest where
  inside : effect.currentIdx ≤ data.length
  blind : effect.Blind
  port : ∀ u, (effect.change u).port = u.port

def Plainly (parser : Context → Exec Parsed) (data : Bytes) (i : Nat) : Prop :=
  ∃ effect, Does parser data i effect ∧ effect.Plain data

/-- The second effect follows if the first one is a success. -/
def Effect.andThen (first second : Effect) : Effect :=
  if first.ok then
    ⟨second.ok, second.currentIdx, second.change ∘ first.change, second.errno ∘ first.errno⟩
  else first

/-- A parser that goes on with another one after a success. -/
def unlessFailed (first second : Context → Exec Parsed) (ctx : Context) : Exec Parsed := do
  let (ok, ctx) ← first ctx
  if !ok then .ok (false, ctx) else second ctx

variable {data : Bytes} {i : Nat} {parser other first second : Context → Exec Parsed} {effect after : Effect}

/-- Two parsers that agree from a position on have the same effects there. -/
theorem Does.congr (h : Does other data i effect)
    (hEq : ∀ result errno, parser ⟨i, data, result, errno⟩ = other ⟨i, data, result, errno⟩) :
    Does parser data i effect := by
  intro result errno
  rw [hEq, h]

/-- Two parsers that agree from a position on both have a plain effect there. -/
theorem Plainly.congr (h : Plainly other data i)
    (hEq : ∀ result errno, parser ⟨i, data, result, errno⟩ = other ⟨i, data, result, errno⟩) :
    Plainly parser data i := by
  obtain ⟨effect, hDoes, hPlain⟩ := h
  exact ⟨effect, hDoes.congr hEq, hPlain⟩

/-- The second parser begins where the first one ends. -/
theorem Does.andThen (hFirst : Does first data i effect)
    (hSecond : effect.ok = true → Does second data effect.currentIdx after) :
    Does (unlessFailed first second) data i (effect.andThen after) := by
  intro result errno
  rw [unlessFailed, hFirst]
  cases hOk : effect.ok with
  | false => simp [bind, Except.bind, Effect.andThen, hOk]
  | true =>
      simp only [bind, Except.bind, Bool.not_true, Bool.false_eq_true, if_false, Effect.andThen, hOk, if_true]
      rw [hSecond hOk]
      simp

/-- A success that leaves `imp_errno` is honest. -/
theorem honest_of_id (j : Nat) (change : Uri → Uri) : Effect.Honest ⟨true, j, change, id⟩ := by
  constructor
  · intro hFalse
    cases hFalse
  · exact fun _ => rfl

/-- Honest effects compose. -/
theorem Effect.Honest.andThen (hFirst : effect.Honest) (hSecond : effect.ok = true → after.Honest) :
    (effect.andThen after).Honest := by
  cases hOk : effect.ok with
  | false =>
      rw [Effect.andThen, hOk, if_neg (by decide)]
      exact hFirst
  | true =>
      rw [Effect.andThen, hOk, if_pos rfl]
      constructor
      · intro hFailed errno
        exact (hSecond hOk).failure hFailed _
      · intro hAfter
        dsimp only [Function.comp_apply]
        rw [hFirst.success hOk, (hSecond hOk).success hAfter]

/-- Blind effects compose. -/
theorem Effect.Blind.andThen (hFirst : effect.Blind) (hSecond : effect.ok = true → after.Blind) :
    (effect.andThen after).Blind := by
  unfold Effect.andThen
  split_ifs with hOk
  · intro u flag
    dsimp only [Function.comp_apply]
    rw [hFirst, hSecond hOk]
  · exact hFirst

/-- Plain effects compose. -/
theorem Effect.Plain.andThen (hFirst : effect.Plain data) (hSecond : effect.ok = true → after.Plain data) :
    (effect.andThen after).Plain data := by
  refine ⟨hFirst.toHonest.andThen fun hOk => (hSecond hOk).toHonest, ?_,
    hFirst.blind.andThen fun hOk => (hSecond hOk).blind, ?_⟩
  · unfold Effect.andThen
    split_ifs with hOk
    · exact (hSecond hOk).inside
    · exact hFirst.inside
  · intro u
    unfold Effect.andThen
    split_ifs with hOk
    · exact ((hSecond hOk).port _).trans (hFirst.port u)
    · exact hFirst.port u

/-- Two parsers in sequence have a plain effect, wherever the first one ends. -/
theorem Plainly.andThen (hFirst : Plainly first data i) (hSecond : ∀ j, j ≤ data.length → Plainly second data j) :
    Plainly (unlessFailed first second) data i := by
  obtain ⟨effect, hDoes, hPlain⟩ := hFirst
  obtain ⟨after, hAfter, hAfterPlain⟩ := hSecond effect.currentIdx hPlain.inside
  exact ⟨effect.andThen after, hDoes.andThen fun _ => hAfter, hPlain.andThen fun _ => hAfterPlain⟩

/-! ### Parsers that read nothing -/

/-- Moving on is a plain effect. -/
theorem plainly_success {j : Nat} (h : j ≤ data.length) :
    Plainly (fun ctx => .ok (true, ctx.moveTo j)) data i := by
  refine ⟨⟨true, j, id, id⟩, ?_, honest_of_id _ _, h, ?_, ?_⟩
  · intro result errno
    simp [Context.moveTo]
  · exact fun _ _ => rfl
  · exact fun _ => rfl

/-- Failing is a plain effect, with any error but success. -/
theorem plainly_fail {j : Nat} (h : j ≤ data.length) {errno : Imperr} (hErrno : errno ≠ .success) :
    Plainly (fun ctx => (ctx.moveTo j).fail errno) data i := by
  refine ⟨⟨false, j, id, fun _ => errno⟩, ?_, ⟨?_, ?_⟩, h, ?_, ?_⟩
  · intro result previous
    simp [Context.moveTo, Context.fail]
  · exact fun _ _ => hErrno
  · intro hFalse
    cases hFalse
  · exact fun _ _ => rfl
  · exact fun _ => rfl

/-! ### Decoding -/

/-- What is decoded does not depend on the error that was there before. -/
theorem percentDecode_errno (text : Bytes) (lowerCase : Bool) (errno : Imperr) :
    (percentDecode text lowerCase errno).ok = (percentDecode text lowerCase .success).ok ∧
      (percentDecode text lowerCase errno).str = (percentDecode text lowerCase .success).str := by
  unfold percentDecode
  split_ifs
  · exact ⟨rfl, rfl⟩
  · cases decodeLoop lowerCase (text.filter fun c => !isspace c) .plain <;> exact ⟨rfl, rfl⟩

/-- What decoding a component, which ends at `j`, does. -/
def decodeEffect (text : Bytes) (lowerCase : Bool) (j : Nat) (store : Uri → Bytes → Uri) : Effect where
  ok := (percentDecode text lowerCase .success).ok
  currentIdx := j
  change u := store u (percentDecode text lowerCase .success).str
  errno errno := (percentDecode text lowerCase errno).errno

/-- Decoding reports its error, and a success in `imp_errno` as well. -/
theorem decodeEffect_honest (text : Bytes) (lowerCase : Bool) (j : Nat) (store : Uri → Bytes → Uri) :
    (decodeEffect text lowerCase j store).Honest := by
  unfold decodeEffect percentDecode
  constructor
  · intro hFailed errno
    dsimp only at hFailed ⊢
    split_ifs at hFailed ⊢
    cases hDecoded : decodeLoop lowerCase (text.filter fun c => !isspace c) .plain with
    | none =>
        intro h
        cases h
    | some decoded =>
        rw [hDecoded] at hFailed
        cases hFailed
  · intro hOk
    dsimp only at hOk ⊢
    split_ifs at hOk ⊢
    · rfl
    · cases hDecoded : decodeLoop lowerCase (text.filter fun c => !isspace c) .plain with
      | none =>
          rw [hDecoded] at hOk
          cases hOk
      | some decoded => rfl

/-- Storing a decoded component is a plain effect if the flag and the port are left alone. -/
theorem plainly_decode {text : Bytes} {lowerCase : Bool} {j : Nat} (hInside : j ≤ data.length)
    {store : Uri → Bytes → Uri}
    (hBlind : ∀ u decoded flag, store { u with hasDefaultPort := flag } decoded =
      { store u decoded with hasDefaultPort := flag })
    (hPort : ∀ u decoded, (store u decoded).port = u.port) :
    Plainly (fun ctx =>
      .ok ((percentDecode text lowerCase ctx.errno).ok,
        { ctx.moveTo j with errno := (percentDecode text lowerCase ctx.errno).errno }.modify fun u =>
          store u (percentDecode text lowerCase ctx.errno).str)) data i := by
  refine ⟨decodeEffect text lowerCase j store, ?_, decodeEffect_honest .., hInside, ?_, ?_⟩
  · intro result errno
    obtain ⟨hOk, hStr⟩ := percentDecode_errno text lowerCase errno
    simp only [decodeEffect, Context.modify, Context.moveTo, hOk, hStr]
  · exact fun u flag => hBlind u _ flag
  · exact fun u => hPort u _

/-! ### The parsers of the components -/

/-- A scan stays inside the text. -/
theorem scanWhile_bounds (known : UInt8 → Bool) (suffix : Bytes) (i : Nat) :
    i ≤ scanWhile known suffix i ∧ scanWhile known suffix i ≤ i + suffix.length := by
  induction suffix generalizing i with
  | nil => exact ⟨Nat.le_refl _, Nat.le_refl _⟩
  | cons c suffix ih =>
      rw [scanWhile, List.length_cons]
      split_ifs
      · have hRest := ih (i + 1)
        omega
      · omega

/-- `_S_parse_scheme` has a plain effect. -/
theorem parseScheme_plainly (h : i < data.length) : Plainly parseScheme data i := by
  obtain ⟨c, hRead, _⟩ := ends_readAt h
  by_cases hAlpha : alpha c = true
  · have hBounds := scanWhile_bounds schemeChar (data.drop (i + 1)) (i + 1)
    rw [List.length_drop] at hBounds
    obtain ⟨next, hNext⟩ : ∃ next, next = scanWhile schemeChar (data.drop (i + 1)) (i + 1) := ⟨_, rfl⟩
    rw [← hNext] at hBounds
    obtain ⟨scheme, hCut, _⟩ := @ends_cut data i next (by omega) (by omega)
    refine ⟨⟨true, next, fun u => { u with scheme := scheme }, id⟩, ?_, honest_of_id _ _, ?_, ?_, ?_⟩
    · intro result errno
      simp only [parseScheme, hRead, bind, Except.bind, hAlpha, ← hNext, hCut]
      rfl
    · exact (by omega : next ≤ data.length)
    · exact fun _ _ => rfl
    · exact fun _ => rfl
  · apply (@plainly_fail data i i (by omega) .uriScheme (by decide)).congr
    intro result errno
    simp only [parseScheme, hRead, bind, Except.bind, hAlpha]
    rfl

/-- `_S_parse_query` has a plain effect. -/
theorem parseQuery_plainly (h : i ≤ data.length) : Plainly parseQuery data i := by
  have hBounds := scanWhile_bounds queryChar (data.drop i) i
  rw [List.length_drop] at hBounds
  obtain ⟨next, hNext⟩ : ∃ next, next = scanWhile queryChar (data.drop i) i := ⟨_, rfl⟩
  rw [← hNext] at hBounds
  obtain ⟨query, hCut, _⟩ := @ends_cut data i next (by omega) (by omega)
  have hInside : next ≤ data.length := by omega
  apply (@plainly_decode data i query false next hInside (fun u decoded => { u with query := decoded })
    (fun _ _ _ => rfl) (fun _ _ => rfl)).congr
  intro result errno
  simp only [parseQuery, ← hNext, hCut, bind, Except.bind]

/-- `_S_parse_fragment` has a plain effect. -/
theorem parseFragment_plainly (h : i ≤ data.length) : Plainly parseFragment data i := by
  by_cases hMore : i < data.length
  · obtain ⟨fragment, hCut, _⟩ := @ends_cut data i data.length h (Nat.le_refl _)
    apply (@plainly_decode data i fragment false i h (fun u decoded => { u with fragment := decoded })
      (fun _ _ _ => rfl) (fun _ _ => rfl)).congr
    intro result errno
    simp only [parseFragment, hMore, if_true, hCut, bind, Except.bind]
    rfl
  · apply (plainly_success h).congr
    intro result errno
    simp only [parseFragment, hMore, if_false]
    rfl

/-- A part that may be missing with its delimiter has a plain effect. -/
theorem parseBehind_plainly {delimiter : UInt8} (h : ∀ j, j ≤ data.length → Plainly parser data j)
    (hInside : i ≤ data.length) : Plainly (parseBehind delimiter parser) data i := by
  by_cases hDelimiter : data[i]? = some delimiter
  · obtain ⟨hMore, _⟩ := List.getElem?_eq_some_iff.mp hDelimiter
    obtain ⟨effect, hDoes, hPlain⟩ := h (i + 1) hMore
    refine ⟨effect, ?_, hPlain⟩
    intro result errno
    rw [parseBehind, if_pos hDelimiter]
    exact hDoes result errno
  · apply (plainly_success hInside).congr
    intro result errno
    rw [parseBehind, if_neg hDelimiter]
    rfl

/-- The scan of a path stays inside the text too. -/
theorem scanPath_bounds (suffix : Bytes) (i count : Nat) :
    i ≤ (scanPath suffix i count).1 ∧ (scanPath suffix i count).1 ≤ i + suffix.length := by
  induction suffix generalizing i count with
  | nil => exact ⟨Nat.le_refl _, Nat.le_refl _⟩
  | cons c suffix ih =>
      rw [scanPath, List.length_cons]
      split_ifs
      · have hRest := ih (i + 1) (count + 1)
        omega
      · exact ⟨Nat.le_refl _, by omega⟩
      · have hRest := ih (i + 1) 0
        omega
      · exact ⟨Nat.le_refl _, by omega⟩

/-- The segments are stored as they are scanned, after decoding. -/
theorem parseSegments_plainly {lastIdx j : Nat} (hOrder : lastIdx ≤ j) (hInside : j ≤ data.length) :
    Plainly (fun ctx => parseSegments ctx lastIdx j) data i := by
  have hBounds := scanPath_bounds (data.drop j) j 0
  rw [List.length_drop] at hBounds
  obtain ⟨⟨next, single⟩, hScan⟩ : ∃ scan, scanPath (data.drop j) j 0 = scan := ⟨_, rfl⟩
  rw [hScan] at hBounds
  have hNext : next ≤ data.length := by omega
  cases single with
  | false =>
      apply (plainly_fail hNext (show Imperr.uriAuthinpath ≠ .success by decide)).congr
      intro result errno
      simp only [parseSegments, hScan]
  | true =>
      obtain ⟨path, hCut, _⟩ := @ends_cut data lastIdx next (by omega) hNext
      apply (@plainly_decode data i path false next hNext (fun u decoded => { u with path := u.path ++ decoded })
        (fun _ _ _ => rfl) (fun _ _ => rfl)).congr
      intro result errno
      simp only [parseSegments, hScan, hCut, bind, Except.bind]

/-- The first segment may fail for its colon, the others are as above. -/
theorem parseRootless_plainly {lastIdx j : Nat} (hOrder : lastIdx ≤ j) (hInside : j < data.length)
    (allowColon : Bool) : Plainly (fun ctx => parseRootless ctx lastIdx j allowColon) data i := by
  obtain ⟨c, hRead, _⟩ := ends_readAt hInside
  by_cases hSlash : c = slash
  · apply (plainly_fail (Nat.le_of_lt hInside) (show Imperr.uriPathdelim ≠ .success by decide)).congr
    intro result errno
    simp [parseRootless, hRead, bind, Except.bind, hSlash]
  have hNe : ¬colon = slash := by decide
  by_cases hColon : c = colon
  · cases allowColon with
    | true =>
        apply (@parseSegments_plainly data i lastIdx (j + 1) (by omega) hInside).congr
        intro result errno
        simp [parseRootless, hRead, bind, Except.bind, hColon, hNe]
    | false =>
        apply (plainly_fail (Nat.le_of_lt hInside) (show Imperr.uriColon ≠ .success by decide)).congr
        intro result errno
        simp [parseRootless, hRead, bind, Except.bind, hColon, hNe]
  · apply (@parseSegments_plainly data i lastIdx j hOrder (Nat.le_of_lt hInside)).congr
    intro result errno
    simp [parseRootless, hRead, bind, Except.bind, hSlash, hColon]

/-- `_S_parse_path` has a plain effect, with and without a root. -/
theorem parsePath_plainly (h : i ≤ data.length) (expectRoot allowColon : Bool) :
    Plainly (fun ctx => parsePath ctx expectRoot allowColon) data i := by
  by_cases hMore : i < data.length
  · have hNotEnd : ¬data.length ≤ i := by omega
    obtain ⟨c, hRead, _⟩ := ends_readAt hMore
    cases expectRoot with
    | false =>
        apply (@parseRootless_plainly data i i i (Nat.le_refl _) hMore allowColon).congr
        intro result errno
        simp only [parsePath, hNotEnd, if_false, hRead, bind, Except.bind, Bool.false_eq_true]
    | true =>
        by_cases hDelimiter : c = question ∨ c = hash
        · apply (plainly_success h).congr
          intro result errno
          rcases hDelimiter with rfl | rfl
          · simp [parsePath, hNotEnd, hRead, bind, Except.bind, Context.moveTo]
          · simp [parsePath, hNotEnd, hRead, bind, Except.bind, Context.moveTo]
        obtain ⟨hQuestion, hHash⟩ := not_or.mp hDelimiter
        by_cases hSlash : c = slash
        · subst hSlash
          by_cases hEnd : data.length ≤ i + 1
          · refine ⟨⟨true, i + 1, fun u => { u with path := [slash] }, id⟩, ?_, honest_of_id _ _, hMore, ?_, ?_⟩
            · intro result errno
              simp [parsePath, hNotEnd, hRead, bind, Except.bind, hEnd, hQuestion, hHash, Context.advance,
                Context.modify]
            · exact fun _ _ => rfl
            · exact fun _ => rfl
          · apply (@parseRootless_plainly data i i (i + 1) (by omega) (by omega) allowColon).congr
            intro result errno
            simp [parsePath, hNotEnd, hRead, bind, Except.bind, hEnd, hQuestion, hHash]
        · apply (@plainly_fail data i i h .uriPathabempty (by decide)).congr
          intro result errno
          simp [parsePath, hNotEnd, hRead, bind, Except.bind, hQuestion, hHash, hSlash, Context.moveTo]
  · apply (plainly_success h).congr
    intro result errno
    have hEnd : data.length ≤ i := by omega
    simp only [parsePath, hEnd, if_true]
    rfl

end ImpactSockets.Uri
