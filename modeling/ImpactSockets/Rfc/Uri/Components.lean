import ImpactSockets.Rfc.Uri.Reading

/-! The parsers of the scheme, the path, the query and the fragment read the
texts that the grammar describes. -/
namespace ImpactSockets.Uri

open Abnf AbnfOps Ascii
open scoped Computability

/-! ### Scheme -/

/-- A scheme is a letter and characters of a scheme. -/
theorem mem_scheme {text : Bytes} :
    text ∈ Grammar.scheme ↔ ∃ c tail, text = c :: tail ∧ alpha c = true ∧ ∀ d ∈ tail, schemeChar d = true := by
  rw [Grammar.scheme, Language.mem_mul]
  constructor
  · rintro ⟨_, ⟨c, hc, rfl⟩, tail, hTail, rfl⟩
    exact ⟨c, tail, rfl, hc, mem_kstar_oneOf.mp hTail⟩
  · rintro ⟨c, tail, rfl, hc, hTail⟩
    exact ⟨[c], ⟨c, hc, rfl⟩, tail, mem_kstar_oneOf.mpr hTail, rfl⟩

/-- `_S_parse_scheme` reads a scheme that ends where its characters do. -/
theorem parseScheme_reads {text rest : Bytes} (hText : text ∈ Grammar.scheme)
    (hRest : Boundary schemeChar rest) (before : Bytes) (result : Option Uri) (errno : Imperr) :
    parseScheme (place before (text ++ rest) result errno) =
      .ok (true, place (before ++ text) rest (result.map fun u => { u with scheme := text }) errno) := by
  obtain ⟨c, tail, rfl, hc, hTail⟩ := mem_scheme.mp hText
  have hNext : scanWhile schemeChar ((before ++ c :: (tail ++ rest)).drop (before.length + 1))
      (before.length + 1) = before.length + (c :: tail).length := by
    rw [drop_place, scanWhile_of_boundary hTail hRest, List.length_cons]
    omega
  refine bind_ok.mpr ⟨c, readAt_place before (tail ++ rest) c, ?_⟩
  rw [if_neg (by simp [hc])]
  refine bind_ok.mpr ⟨c :: tail, ?_, ?_⟩
  · exact hNext ▸ cut_place before (c :: tail) rest
  · simp [Context.modify, Context.moveTo, place, scanWhile_of_boundary hTail hRest]
    omega

/-- What `_S_parse_scheme` accepts begins with a scheme. -/
theorem parseScheme_split {before s : Bytes} {result : Option Uri} {errno : Imperr} {next : Context}
    (h : parseScheme (place before s result errno) = .ok (true, next)) :
    ∃ text rest, s = text ++ rest ∧ text ∈ Grammar.scheme ∧ Boundary schemeChar rest := by
  obtain ⟨c, hRead, h⟩ := bind_ok.mp h
  cases s with
  | nil => simp [place, readAt] at hRead
  | cons d s =>
      cases (readAt_place before s d).symm.trans hRead
      have hAlpha : alpha c = true := by
        by_contra hAlpha
        rw [if_pos (by simpa using hAlpha)] at h
        exact fail_ne h
      obtain ⟨tail, rest, rfl, hTail, hRest⟩ := split_at_boundary schemeChar s
      exact ⟨c :: tail, rest, rfl, mem_scheme.mpr ⟨c, tail, rfl, hAlpha, hTail⟩, hRest⟩

/-! ### Query and fragment -/

/-- The characters of a query that are not part of a triplet. -/
def queryPlain (c : UInt8) : Bool := Grammar.pchar c || c == slash || c == question

set_option maxRecDepth 4000 in
theorem encodable_queryPlain : Encodable queryPlain := by
  constructor <;> decide

/-- The characters that are scanned are the plain ones and the percent sign. -/
theorem queryChar_iff (c : UInt8) : queryChar c = true ↔ queryPlain c = true ∨ c = percent := by
  simp only [queryChar, queryPlain, Grammar.pchar, Bool.or_eq_true, beq_iff_eq]
  tauto

/-- `_S_parse_query` reads the longest query. -/
theorem parseQuery_reads {text rest : Bytes} (hText : text ∈ Grammar.query)
    (hRest : Boundary queryChar rest) (u : Uri) :
    Reads parseQuery text rest u { u with query := percentNormal id text } := by
  intro before _ result errno
  have hChars : ∀ c ∈ text, queryChar c = true := fun c hc =>
    (queryChar_iff c).mpr (encodedText_chars encodable_queryPlain hText c hc)
  have hPlain := encodedText_chars encodable_queryPlain hText
  have hOk := (percentDecode_iff encodable_queryPlain hPlain false errno).mpr hText
  refine ⟨(percentDecode text false errno).errno, bind_ok.mpr ⟨text, ?_, ?_⟩⟩
  · simp only [place, List.drop_left, scanWhile_of_boundary hChars hRest]
    exact cut_place before text rest
  · simp [hOk, percentDecode_normal encodable_queryPlain hText, Context.modify, Context.moveTo, place,
      scanWhile_of_boundary hChars hRest, Function.comp_def]

/-- What `_S_parse_query` accepts begins with a query. -/
theorem parseQuery_split {before s : Bytes} {result : Option Uri} {errno : Imperr} {next : Context}
    (h : parseQuery (place before s result errno) = .ok (true, next)) :
    ∃ text rest, s = text ++ rest ∧ text ∈ Grammar.query ∧ Boundary queryChar rest := by
  obtain ⟨text, rest, rfl, hChars, hRest⟩ := split_at_boundary queryChar s
  obtain ⟨query, hCut, h⟩ := bind_ok.mp h
  simp only [place, List.drop_left, scanWhile_of_boundary hChars hRest] at hCut h
  cases (cut_place before text rest).symm.trans hCut
  have hPlain : ∀ c ∈ text, queryPlain c = true ∨ c = percent := fun c hc =>
    (queryChar_iff c).mp (hChars c hc)
  refine ⟨text, rest, rfl, (percentDecode_iff encodable_queryPlain hPlain false errno).mp ?_, hRest⟩
  exact congrArg Prod.fst (Except.ok.inj h)

/-- A fragment is any text that can be decoded. -/
theorem mem_fragment {text : Bytes} :
    text ∈ Grammar.fragment ↔ (decodeLoop false text .plain).isSome = true := by
  rw [Grammar.fragment, mem_encodedText_iff (by decide) (fun c hc => ?_) false, and_iff_right]
  · intro c _
    simpa using Classical.em (¬c = percent)
  · have hNe : c ≠ percent := by
      rintro rfl
      cases hc
    simpa using hNe

/-- What formatted input skips is left out before a fragment is decoded. -/
theorem percentDecode_fragment (text : Bytes) (errno : Imperr) :
    (percentDecode text false errno).ok = true ↔ visible text ∈ Grammar.fragment := by
  rw [percentDecode_ok, mem_fragment]

/-- `_S_parse_fragment` reads to the end, and takes the visible characters only. -/
theorem parseFragment_reads {text : Bytes} (hText : visible text ∈ Grammar.fragment) {u : Uri}
    (hFragment : u.fragment = []) (before : Bytes) (result : Option Uri) (errno : Imperr) :
    ∃ last, parseFragment (place before text (result.map fun _ => u) errno) = .ok (true, last) ∧
      last.result = result.map fun _ => { u with fragment := percentNormal id (visible text) } := by
  cases text with
  | nil =>
      have hNil : percentNormal id (visible []) = u.fragment := hFragment.symm
      exact ⟨_, if_neg (by simp [place]), by rw [hNil]; rfl⟩
  | cons c tail =>
      have hCut : cut (before ++ c :: tail) before.length (before ++ c :: tail).length = .ok (c :: tail) := by
        simpa using cut_place before (c :: tail) []
      have hOk := (percentDecode_fragment _ errno).mpr hText
      have hDecoded : (percentDecode (c :: tail) false errno).str = percentNormal id (visible (c :: tail)) :=
        percentDecode_str (decodeLoop_eq_percentNormal (by decide) hText) errno
      simp only [parseFragment, place, hCut]
      rw [if_pos (by simp)]
      refine ⟨_, congrArg Except.ok (Prod.ext hOk rfl), ?_⟩
      simp [Context.modify, Function.comp_def, hDecoded]

/-- `_S_parse_fragment` accepts only texts whose visible characters are a fragment. -/
theorem parseFragment_split {before s : Bytes} {result : Option Uri} {errno : Imperr} {next : Context}
    (h : parseFragment (place before s result errno) = .ok (true, next)) :
    visible s ∈ Grammar.fragment := by
  cases s with
  | nil => exact Language.nil_mem_kstar _
  | cons c tail =>
      unfold parseFragment at h
      rw [if_pos (by simp [place])] at h
      obtain ⟨fragment, hCut, h⟩ := bind_ok.mp h
      have hPlace := cut_place before (c :: tail) []
      rw [List.append_nil, ← List.length_append] at hPlace
      cases hPlace.symm.trans hCut
      exact (percentDecode_fragment _ errno).mp (congrArg Prod.fst (Except.ok.inj h))

/-! ### Path -/

/-- The characters of a path that are not part of a triplet. -/
def pathPlain (c : UInt8) : Bool := Grammar.pchar c || c == slash

set_option maxRecDepth 4000 in
theorem encodable_pathPlain : Encodable pathPlain := by
  constructor <;> decide

/-- The characters that the loop over a path goes on at. -/
def pathOrSlash (c : UInt8) : Bool := pathChar c || c == slash

/-- The characters that are scanned are the plain ones of a path and the percent sign. -/
theorem pathOrSlash_iff (c : UInt8) : pathOrSlash c = true ↔ pathPlain c = true ∨ c = percent := by
  simp only [pathOrSlash, pathChar, pathPlain, Grammar.pchar, Bool.or_eq_true, beq_iff_eq]
  tauto

theorem slash_not_pathChar : pathChar slash = false := by decide

/-- The loop reads a text without empty segments up to a boundary. -/
theorem scanPath_reads {text rest : Bytes} {count : Nat} (hChars : ∀ c ∈ text, pathOrSlash c = true)
    (hSlashed : SingleSlashed text) (hHead : count = 0 → text.head? ≠ some slash)
    (hRest : Boundary pathOrSlash rest) (i : Nat) :
    scanPath (text ++ rest) i count = (i + text.length, true) := by
  induction text generalizing count i with
  | nil =>
      cases rest with
      | nil => rfl
      | cons c rest =>
          have hc := boundary_cons.mp hRest
          simp only [pathOrSlash, Bool.or_eq_false_iff] at hc
          simp [scanPath, hc]
  | cons c text ih =>
      rw [List.forall_mem_cons] at hChars
      rw [singleSlashed_cons] at hSlashed
      rw [List.cons_append, scanPath, List.length_cons]
      by_cases hc : pathChar c = true
      · rw [if_pos hc, ih hChars.2 hSlashed.2 (by omega), Prod.mk.injEq]
        exact ⟨by omega, rfl⟩
      · have hSlash : c = slash := by simpa [pathOrSlash, hc] using hChars.1
        have hCount : count ≠ 0 := fun hZero => hHead hZero (by simp [hSlash])
        rw [if_neg hc, if_pos (by simpa using hSlash), if_neg hCount,
          ih hChars.2 hSlashed.2 (fun _ => hSlashed.1 hSlash), Prod.mk.injEq]
        exact ⟨by omega, rfl⟩

/-- The scan ends at the first character that is no path's, or fails at two slashes. -/
theorem scanPath_split {s : Bytes} {i count next : Nat} (h : scanPath s i count = (next, true)) :
    ∃ text rest, s = text ++ rest ∧ (∀ c ∈ text, pathOrSlash c = true) ∧ SingleSlashed text ∧
      (count = 0 → text.head? ≠ some slash) ∧ Boundary pathOrSlash rest := by
  induction s generalizing i count with
  | nil => exact ⟨[], [], rfl, by simp, fun before after hEq => by simp at hEq, by simp, boundary_nil _⟩
  | cons c s ih =>
      rw [scanPath] at h
      split_ifs at h with hc hSlash hCount
      · obtain ⟨text, rest, rfl, hChars, hSlashed, _, hRest⟩ := ih h
        refine ⟨c :: text, rest, rfl, ?_, ?_, ?_, hRest⟩
        · exact List.forall_mem_cons.mpr ⟨by simp [pathOrSlash, hc], hChars⟩
        · refine singleSlashed_cons.mpr ⟨?_, hSlashed⟩
          rintro rfl
          simp [slash_not_pathChar] at hc
        · rintro _ hHead
          cases Option.some.inj hHead
          simp [slash_not_pathChar] at hc
      · cases h
      · obtain ⟨text, rest, rfl, hChars, hSlashed, hHead, hRest⟩ := ih h
        refine ⟨c :: text, rest, rfl, ?_, ?_, fun hZero => absurd hZero hCount, hRest⟩
        · exact List.forall_mem_cons.mpr ⟨by simp [pathOrSlash, hSlash], hChars⟩
        · exact singleSlashed_cons.mpr ⟨fun _ => hHead rfl, hSlashed⟩
      · refine ⟨[], c :: s, rfl, by simp, fun before after hEq => by simp at hEq, by simp, ?_⟩
        exact boundary_cons.mpr (by simp_all [pathOrSlash])

/-- The context after a path has been read. -/
def Context.afterPath (ctx : Context) (before path : Bytes) : Context :=
  ⟨(before ++ path).length, ctx.data,
    ctx.result.map fun u => { u with path := u.path ++ percentNormal id path },
    (percentDecode path false ctx.errno).errno⟩

/-- The loop starts behind `root`, which belongs to the path. -/
theorem parseSegments_reads {ctx : Context} {before root text rest : Bytes}
    (hData : ctx.data = before ++ (root ++ text ++ rest))
    (hEncoded : root ++ text ∈ Grammar.encodedText pathPlain) (hSlashed : SingleSlashed text)
    (hHead : text.head? ≠ some slash) (hRest : Boundary pathOrSlash rest) :
    parseSegments ctx before.length (before ++ root).length =
      .ok (true, ctx.afterPath before (root ++ text)) := by
  have hChars : ∀ c ∈ root ++ text, pathPlain c = true ∨ c = percent :=
    encodedText_chars encodable_pathPlain hEncoded
  have hScan : scanPath (ctx.data.drop (before ++ root).length) (before ++ root).length 0 =
      ((before ++ (root ++ text)).length, true) := by
    rw [hData, List.append_assoc, ← List.append_assoc before, List.drop_left,
      scanPath_reads (fun c hc => (pathOrSlash_iff c).mpr (hChars c (List.mem_append_right _ hc)))
        hSlashed (fun _ => hHead) hRest]
    simp [Nat.add_assoc]
  have hOk := (percentDecode_iff encodable_pathPlain hChars false ctx.errno).mpr hEncoded
  unfold parseSegments
  rw [hScan]
  refine bind_ok.mpr ⟨root ++ text, ?_, ?_⟩
  · rw [hData, List.length_append]
    exact cut_place before (root ++ text) rest
  · simp [hOk, percentDecode_normal encodable_pathPlain hEncoded, Context.modify, Context.moveTo,
      Context.afterPath]

/-- What the loop over the segments accepts continues the root to an encoded path. -/
theorem parseSegments_split {ctx next : Context} {before root s : Bytes}
    (hRoot : ∀ c ∈ root, pathOrSlash c = true) (hData : ctx.data = before ++ (root ++ s))
    (h : parseSegments ctx before.length (before ++ root).length = .ok (true, next)) :
    ∃ text rest, s = text ++ rest ∧ root ++ text ∈ Grammar.encodedText pathPlain ∧
      SingleSlashed text ∧ text.head? ≠ some slash ∧ Boundary pathOrSlash rest := by
  unfold parseSegments at h
  rw [hData, ← List.append_assoc, List.drop_left] at h
  split at h
  · exact (fail_ne h).elim
  · next last hScan =>
    obtain ⟨text, rest, rfl, hText, hSlashed, hHead, hRest⟩ := scanPath_split hScan
    rw [scanPath_reads hText hSlashed hHead hRest] at hScan
    obtain ⟨path, hCut, h⟩ := bind_ok.mp h
    have hPath : path = root ++ text := by
      have hPlace := cut_place before (root ++ text) rest
      rw [← (Prod.mk.inj hScan).1, List.append_assoc before, List.length_append, Nat.add_assoc] at hCut
      rw [List.append_assoc, List.length_append] at hPlace
      exact (Except.ok.inj (hPlace.symm.trans hCut)).symm
    have hChars : ∀ c ∈ root ++ text, pathPlain c = true ∨ c = percent := by
      intro c hc
      rcases List.mem_append.mp hc with hc | hc
      · exact (pathOrSlash_iff c).mp (hRoot c hc)
      · exact (pathOrSlash_iff c).mp (hText c hc)
    refine ⟨text, rest, rfl, ?_, hSlashed, hHead rfl, hRest⟩
    rw [← percentDecode_iff encodable_pathPlain hChars false ctx.errno, ← hPath]
    exact congrArg Prod.fst (Except.ok.inj h)

/-- A path behind its root: it has no empty segment, and is not taken to start
with one because of a ":" that is not counted. -/
structure Rootless (text : Bytes) : Prop where
  encoded : text ∈ Grammar.encodedText pathPlain
  head : text.head? ≠ some slash
  slashed : SingleSlashed text
  colon : ∀ tail, text ≠ colon :: slash :: tail

/-- A path without a leading slash is read to its end. -/
theorem parseRootless_reads (ctx : Context) (before root : Bytes) {text rest : Bytes}
    (hData : ctx.data = before ++ (root ++ text ++ rest)) (hRoot : ∀ c ∈ root, pathPlain c = true)
    (hText : Rootless text) (hRest : Boundary pathOrSlash rest) (hNe : text ++ rest ≠ []) :
    parseRootless ctx before.length (before ++ root).length true =
      .ok (true, ctx.afterPath before (root ++ text)) := by
  have hEncoded := (append_mem_encodedText encodable_pathPlain hRoot).mpr hText.encoded
  obtain ⟨c, tail, hTail⟩ := List.exists_cons_of_ne_nil hNe
  have hRead : readAt ctx.data (before ++ root).length = .ok c := by
    rw [hData, List.append_assoc, hTail, ← List.append_assoc]
    exact readAt_place (before ++ root) tail c
  refine bind_ok.mpr ⟨c, hRead, ?_⟩
  have hSlash : c ≠ slash := by
    rintro rfl
    rcases text with _ | ⟨d, text⟩
    · rw [List.nil_append] at hTail
      rw [hTail] at hRest
      simp [boundary_cons, pathOrSlash] at hRest
    · obtain ⟨rfl, _⟩ := List.cons.inj hTail
      exact hText.head rfl
  rw [if_neg (by simpa using hSlash)]
  by_cases hColon : c = colon
  · rw [if_pos (by simpa using hColon), if_pos rfl]
    rcases text with _ | ⟨d, text⟩
    · rw [List.nil_append] at hTail
      rw [hTail, hColon] at hRest
      exact absurd (boundary_cons.mp hRest) (by decide)
    · obtain ⟨rfl, _⟩ := List.cons.inj hTail
      subst hColon
      have hHead : text.head? ≠ some slash := by
        intro hHead
        obtain ⟨tail, rfl⟩ := List.head?_eq_some_iff.mp hHead
        exact hText.colon tail rfl
      have hSplit : root ++ colon :: text = (root ++ [colon]) ++ text := by simp
      have hLength : (before ++ root).length + 1 = (before ++ (root ++ [colon])).length := by
        simp [Nat.add_assoc]
      rw [hSplit] at hData hEncoded ⊢
      rw [hLength]
      exact parseSegments_reads hData hEncoded (singleSlashed_cons.mp hText.slashed).2 hHead hRest
  · rw [if_neg (by simpa using hColon)]
    exact parseSegments_reads hData hEncoded hText.slashed hText.head hRest

/-- What is accepted begins with such a path. -/
theorem parseRootless_split {ctx next : Context} (before root : Bytes) {s : Bytes}
    (hRoot : ∀ c ∈ root, pathPlain c = true) (hData : ctx.data = before ++ (root ++ s))
    (h : parseRootless ctx before.length (before ++ root).length true = .ok (true, next)) :
    ∃ text rest, s = text ++ rest ∧ Rootless text ∧ Boundary pathOrSlash rest := by
  have hKnown (known : Bytes) (h : ∀ c ∈ known, pathPlain c = true) : ∀ c ∈ known, pathOrSlash c = true :=
    fun c hc => (pathOrSlash_iff c).mpr (.inl (h c hc))
  obtain ⟨c, hRead, h⟩ := bind_ok.mp h
  rw [hData, ← List.append_assoc] at hRead
  cases s with
  | nil => simp [readAt] at hRead
  | cons d s =>
      cases (readAt_place (before ++ root) s d).symm.trans hRead
      split_ifs at h with hSlash hColon
      · exact (fail_ne h).elim
      · have hc : c = colon := by simpa using hColon
        subst hc
        have hAll : ∀ c ∈ root ++ [colon], pathPlain c = true := by
          intro c hc
          rcases List.mem_append.mp hc with hc | hc
          · exact hRoot c hc
          · rw [List.mem_singleton.mp hc]
            decide
        have hLength : (before ++ root).length + 1 = (before ++ (root ++ [colon])).length := by
          simp [Nat.add_assoc]
        rw [hLength] at h
        obtain ⟨text, rest, rfl, hText, hSlashed, hHead, hRest⟩ :=
          parseSegments_split (hKnown _ hAll) (by simpa using hData) h
        rw [List.append_assoc, append_mem_encodedText encodable_pathPlain hRoot] at hText
        refine ⟨colon :: text, rest, rfl, ⟨hText, fun h => absurd (Option.some.inj h) (by decide), ?_, ?_⟩, hRest⟩
        · exact singleSlashed_cons.mpr ⟨fun h => absurd h (by decide), hSlashed⟩
        · rintro tail hEq
          rw [(List.cons.inj hEq).2] at hHead
          exact hHead rfl
      · exact (fail_ne h).elim
      · obtain ⟨text, rest, hs, hText, hSlashed, hHead, hRest⟩ :=
          parseSegments_split (hKnown _ hRoot) hData h
        refine ⟨text, rest, hs, ⟨(append_mem_encodedText encodable_pathPlain hRoot).mp hText, hHead,
          hSlashed, ?_⟩, hRest⟩
        rintro tail rfl
        obtain ⟨rfl, _⟩ := List.cons.inj hs
        simp at hColon

theorem rootless_nil : Rootless [] :=
  ⟨Language.nil_mem_kstar _, by simp, fun before after h => by simp at h, by simp⟩

/-- The context behind a path, in terms of what has been read. -/
theorem afterPath_place (before path rest : Bytes) (result : Option Uri) (errno : Imperr) :
    (place before (path ++ rest) result errno).afterPath before path =
      place (before ++ path) rest (result.map fun u => { u with path := u.path ++ percentNormal id path })
        (percentDecode path false errno).errno := by
  simp [Context.afterPath, place]

/-- `_S_parse_path` without an expected root reads a rootless path. -/
theorem parsePath_reads {text rest : Bytes} (hText : Rootless text) (hRest : Boundary pathOrSlash rest)
    (u : Uri) :
    Reads (parsePath · false true) text rest u { u with path := u.path ++ percentNormal id text } := by
  intro before _ result errno
  refine ⟨(percentDecode text false errno).errno, ?_⟩
  by_cases hNil : text ++ rest = []
  · obtain ⟨rfl, rfl⟩ := List.append_eq_nil_iff.mp hNil
    simp [parsePath, place, percentNormal, percentDecode]
  · obtain ⟨c, tail, hTail⟩ := List.exists_cons_of_ne_nil hNil
    have hRun := parseRootless_reads (place before (text ++ rest) (result.map fun _ => u) errno) before []
      rfl (by simp) hText hRest hNil
    rw [List.append_nil, List.nil_append, afterPath_place, Option.map_map] at hRun
    simp only [parsePath]
    rw [if_neg (place_at_end.not.mpr hNil)]
    refine bind_ok.mpr ⟨c, ?_, hRun⟩
    rw [hTail]
    exact readAt_place before tail c

/-- `_S_parse_path` accepts only texts that begin with a rootless path. -/
theorem parsePath_split {before s : Bytes} {result : Option Uri} {errno : Imperr} {next : Context}
    (h : parsePath (place before s result errno) false true = .ok (true, next)) :
    ∃ text rest, s = text ++ rest ∧ Rootless text ∧ Boundary pathOrSlash rest := by
  unfold parsePath at h
  by_cases hNil : s = []
  · exact ⟨[], [], by rw [hNil]; rfl, rootless_nil, boundary_nil _⟩
  · rw [if_neg (place_at_end.not.mpr hNil)] at h
    obtain ⟨_, _, h⟩ := bind_ok.mp h
    have hIdx : before.length = (before ++ []).length := by simp
    refine @parseRootless_split (place before s result errno) next before [] s (by simp) rfl ?_
    rw [← hIdx]
    exact h

/-- A path behind an authority: empty in front of a query or fragment or at the
end, else rooted. -/
def Abempty (text rest : Bytes) : Prop :=
  (text = [] ∧ ∀ c ∈ rest.head?, c = question ∨ c = hash) ∨
    ∃ tail, text = slash :: tail ∧ Rootless tail ∧ Boundary pathOrSlash rest

/-- Behind an authority the path is empty or begins with a slash. -/
theorem parsePath_abempty_reads {text rest : Bytes} (hText : Abempty text rest) {u : Uri}
    (hPath : u.path = []) :
    Reads (parsePath · true true) text rest u { u with path := percentNormal id text } := by
  intro before _ result errno
  rcases hText with ⟨rfl, hRest⟩ | ⟨tail, rfl, hTail, hRest⟩
  · refine ⟨errno, ?_⟩
    have hSame : { u with path := percentNormal id [] } = u := by
      rw [show percentNormal id [] = u.path from hPath.symm]
    rw [hSame]
    simp only [parsePath]
    cases rest with
    | nil => simp [place]
    | cons c rest =>
        rw [if_neg (by simp [place])]
        refine bind_ok.mpr ⟨c, readAt_place before rest c, ?_⟩
        rcases hRest c rfl with rfl | rfl
        · simp [place]
        · simp [place]
  · refine ⟨if tail ++ rest = [] then errno else (percentDecode (slash :: tail) false errno).errno, ?_⟩
    simp only [parsePath]
    rw [if_neg (by simp [place])]
    refine bind_ok.mpr ⟨slash, readAt_place before (tail ++ rest) slash, ?_⟩
    rw [if_pos trivial, if_neg (by decide), if_neg (by decide), if_neg (by decide)]
    by_cases hNil : tail ++ rest = []
    · obtain ⟨rfl, rfl⟩ := List.append_eq_nil_iff.mp hNil
      simp [place, Context.modify, Context.advance, percentNormal, Function.comp_def]
    · have hRun := parseRootless_reads (place before (slash :: tail ++ rest) (result.map fun _ => u) errno)
        before [slash] rfl (List.forall_mem_singleton.mpr rfl) hTail hRest hNil
      rw [List.singleton_append, afterPath_place, Option.map_map, List.length_append] at hRun
      rw [if_neg (by simpa [place] using hNil), if_neg hNil]
      simp only [Function.comp_def, hPath, List.nil_append] at hRun
      exact hRun

/-- Behind an authority only an empty path or one with a slash is accepted. -/
theorem parsePath_abempty_split {before s : Bytes} {result : Option Uri} {errno : Imperr} {next : Context}
    (h : parsePath (place before s result errno) true true = .ok (true, next)) :
    ∃ text rest, s = text ++ rest ∧ Abempty text rest := by
  unfold parsePath at h
  by_cases hNil : s = []
  · exact ⟨[], [], by rw [hNil]; rfl, .inl ⟨rfl, by simp⟩⟩
  rw [if_neg (place_at_end.not.mpr hNil)] at h
  obtain ⟨c, hRead, h⟩ := bind_ok.mp h
  obtain ⟨d, s, rfl⟩ := List.exists_cons_of_ne_nil hNil
  cases (readAt_place before s d).symm.trans hRead
  rw [if_pos rfl] at h
  split_ifs at h with hQuestion hHash hSlash hEnd
  · exact ⟨[], c :: s, rfl, .inl ⟨rfl, by simpa using Or.inl (eq_of_beq hQuestion)⟩⟩
  · exact ⟨[], c :: s, rfl, .inl ⟨rfl, by simpa using Or.inr (eq_of_beq hHash)⟩⟩
  · exact (fail_ne h).elim
  · have hSlash : c = slash := by simpa using hSlash
    have hNil : s = [] := by simpa [place] using hEnd
    exact ⟨[slash], [], by rw [hSlash, hNil]; rfl, .inr ⟨[], rfl, rootless_nil, boundary_nil _⟩⟩
  · have hSlash : c = slash := by simpa using hSlash
    subst hSlash
    obtain ⟨text, rest, rfl, hText, hRest⟩ :=
      @parseRootless_split (place before (slash :: s) result errno) next before [slash] s
        (List.forall_mem_singleton.mpr rfl) rfl
        (by simpa [place] using h)
    exact ⟨slash :: text, rest, rfl, .inr ⟨text, rfl, hText, hRest⟩⟩

end ImpactSockets.Uri
