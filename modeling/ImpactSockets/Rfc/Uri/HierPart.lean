import ImpactSockets.Rfc.Uri.Authority
import ImpactSockets.Rfc.Uri.Components

/-! The texts that the parser of the hierarchical part reads. -/
namespace ImpactSockets.Uri

open Abnf AbnfOps Ascii
open scoped Computability

def authorityText (authority : Option AuthorityText) : Bytes :=
  (authority.map fun parts => slash :: slash :: parts.text).getD []

/-- What the parser accepts in front of `rest`: a path that may be rooted, or an
authority and a path that is empty or rooted. -/
inductive HierText : Option AuthorityText → Bytes → Bytes → Prop where
  | rootless {path rest : Bytes} (hPath : Rootless path) (hRest : Boundary pathOrSlash rest) :
      HierText none path rest
  | absolute {path rest : Bytes} (hPath : Rootless path) (hRest : Boundary pathOrSlash rest) :
      HierText none (slash :: path) rest
  | authority {parts : AuthorityText} {path rest : Bytes} (hParts : parts.Accepted)
      (hPath : Abempty path rest) : HierText (some parts) path rest

/-- The path is made of plain characters and triplets. -/
theorem HierText.path_encoded {authority : Option AuthorityText} {path rest : Bytes} (h : HierText authority path rest) :
    path ∈ Grammar.encodedText pathPlain := by
  have hRooted {path : Bytes} (hPath : Rootless path) : slash :: path ∈ Grammar.encodedText pathPlain :=
    cons_mem_encodedText (by decide) hPath.encoded
  cases h with
  | rootless hPath => exact hPath.encoded
  | absolute hPath => exact hRooted hPath
  | authority _ hPath =>
      rcases hPath with ⟨rfl, _⟩ | ⟨tail, rfl, hTail, _⟩
      · exact Language.nil_mem_kstar _
      · exact hRooted hTail

/-- What the parser makes of the result. -/
def applyHierPart (authority : Option AuthorityText) (path : Bytes) (u : Uri) : Uri :=
  { authority.elim u (fun parts => parts.apply u) with path := percentNormal id path }

/-! ### Behind a slash -/

/-- The context behind a slash that is the root of the path. -/
def Context.rooted (ctx : Context) : Context :=
  (ctx.advance 1).modify fun u => { u with path := u.path ++ [slash] }

/-- At a slash the next character decides between an authority and a path. -/
theorem parseHierPart_slash (before s : Bytes) (result : Option Uri) (errno : Imperr) :
    parseHierPart (place before (slash :: s) result errno) =
      if s = [] then .ok (true, (place before (slash :: s) result errno).rooted)
      else if s.head? = some slash then do
        let (ok, afterAuthority) ← parseAuthority ((place before (slash :: s) result errno).advance 2)
        if ok then parsePath afterAuthority true true else .ok (false, afterAuthority)
      else parsePath (place before (slash :: s) result errno).rooted false true := by
  have hRead : readAt (before ++ slash :: s) before.length = .ok slash := readAt_place before s slash
  unfold parseHierPart
  rw [if_neg (place_at_end.not.mpr (by simp))]
  simp only [place, hRead, bind, Except.bind]
  rw [if_pos (by decide)]
  rcases s with _ | ⟨c, s⟩
  · simp [Context.advance, Context.rooted]
  · have hNext : readAt (before ++ slash :: c :: s) (before.length + 1) = .ok c := by
      simp [readAt]
    by_cases hSlash : c = slash
    · subst hSlash
      simp [Context.advance, hNext]
    · simp [Context.advance, Context.rooted, hNext, hSlash]

/-- The context behind a slash that has been stored as the path. -/
theorem rooted_place (before rest : Bytes) (result : Option Uri) (errno : Imperr) {u : Uri} (h : u.path = []) :
    (place before (slash :: rest) (result.map fun _ => u) errno).rooted =
      place (before ++ [slash]) rest (result.map fun _ => { u with path := [slash] }) errno := by
  simp [place, Context.rooted, Context.advance, Context.modify, Function.comp_def, h]

/-- An authority ends where such a path begins. -/
theorem Abempty.boundary {path rest : Bytes} (h : Abempty path rest) :
    Boundary authorityChar (path ++ rest) := by
  rcases h with ⟨rfl, hRest⟩ | ⟨tail, rfl, _, _⟩
  · intro c hc
    rcases hRest c hc with rfl | rfl <;> decide
  · exact boundary_cons.mpr (by decide)

/-- A rootless path does not begin with a slash. -/
theorem pathChar_of_rootless {c : UInt8} {tail : Bytes} (h : Rootless (c :: tail)) :
    pathChar c = true ∧ c ≠ slash := by
  have hSlash : c ≠ slash := fun hEq => h.head (by rw [hEq]; rfl)
  have hChar := (pathOrSlash_iff c).mpr (encodedText_chars encodable_pathPlain h.encoded c List.mem_cons_self)
  exact ⟨by simpa [pathOrSlash, hSlash] using hChar, hSlash⟩

/-- `_S_parse_hier_part` reads an accepted hierarchical part and stores its parts. -/
theorem parseHierPart_reads {authority : Option AuthorityText} {path rest : Bytes}
    (h : HierText authority path rest) {u : Uri} (hHost : u.host = []) (hPort : u.port = -1)
    (hPath : u.path = []) :
    Reads parseHierPart (authorityText authority ++ path) rest u (applyHierPart authority path u) := by
  intro before hNe result errno
  cases h with
  | @rootless path rest hText hRest =>
      have hRun := parsePath_reads hText hRest u before hNe result errno
      rw [hPath, List.nil_append] at hRun
      change ∃ errno', parseHierPart (place before (path ++ rest) (result.map fun _ => u) errno) =
        .ok (true, place (before ++ path) rest (result.map fun _ => { u with path := percentNormal id path }) errno')
      unfold parseHierPart
      rcases path with _ | ⟨c, tail⟩
      · have hSame : { u with path := percentNormal id [] } = u := by
          rw [show percentNormal id [] = u.path from hPath.symm]
        rw [hSame, List.nil_append, List.append_nil]
        refine ⟨errno, ?_⟩
        rcases rest with _ | ⟨c, rest⟩
        · rw [if_pos (place_at_end.mpr rfl)]
        · have hc := boundary_cons.mp hRest
          simp only [pathOrSlash, Bool.or_eq_false_iff] at hc
          rw [if_neg (place_at_end.not.mpr (by simp))]
          refine bind_ok.mpr ⟨c, readAt_place before rest c, ?_⟩
          rw [if_neg (by simp [hc.2]), if_neg (by simp [hc.1])]
      · obtain ⟨hChar, hSlash⟩ := pathChar_of_rootless hText
        obtain ⟨errno', hRun⟩ := hRun
        refine ⟨errno', ?_⟩
        rw [if_neg (place_at_end.not.mpr (by simp))]
        refine bind_ok.mpr ⟨c, readAt_place before (tail ++ rest) c, ?_⟩
        rw [if_neg (by simpa using hSlash), if_pos hChar]
        exact hRun
  | @absolute path rest hText hRest =>
      have hBefore : before ++ [slash] ≠ [] := by simp
      have hRun := parsePath_reads hText hRest { u with path := [slash] } (before ++ [slash]) hBefore result errno
      have hNormal : [slash] ++ percentNormal id path = percentNormal id (slash :: path) :=
        (percentNormal_plain (by decide) id path).symm
      rw [hNormal, List.append_assoc] at hRun
      change ∃ errno', parseHierPart (place before (slash :: (path ++ rest)) (result.map fun _ => u) errno) =
        .ok (true, place (before ++ slash :: path) rest
          (result.map fun _ => { u with path := percentNormal id (slash :: path) }) errno')
      rw [parseHierPart_slash, rooted_place before (path ++ rest) result errno hPath]
      by_cases hNil : path ++ rest = []
      · obtain ⟨rfl, rfl⟩ := List.append_eq_nil_iff.mp hNil
        exact ⟨errno, if_pos rfl⟩
      · have hHead : (path ++ rest).head? ≠ some slash := by
          rcases path with _ | ⟨c, tail⟩
          · intro hHead
            exact absurd (hRest slash hHead) (by decide)
          · exact hText.head
        rw [if_neg hNil, if_neg hHead]
        exact hRun
  | @authority parts path rest hParts hText =>
      have hBefore : before ++ [slash, slash] ≠ [] := by simp
      have hAuthority := parseAuthority_reads hParts hText.boundary hHost hPort
      obtain ⟨errno', hRead⟩ := hAuthority (before ++ [slash, slash]) hBefore result errno
      have hPathRun := parsePath_abempty_reads hText (u := parts.apply u) hPath
      obtain ⟨last, hLast⟩ := hPathRun (before ++ [slash, slash] ++ parts.text) (by simp) result errno'
      refine ⟨last, ?_⟩
      change parseHierPart (place before (slash :: slash :: (parts.text ++ path ++ rest)) _ errno) = _
      rw [parseHierPart_slash, if_neg (by simp), if_pos List.head?_cons]
      have hAdvance : (place before (slash :: slash :: (parts.text ++ path ++ rest))
          (result.map fun _ => u) errno).advance 2 =
          place (before ++ [slash, slash]) (parts.text ++ (path ++ rest)) (result.map fun _ => u) errno := by
        simp [place, Context.advance]
      rw [hAdvance, hRead]
      refine hLast.trans ?_
      simp [authorityText, applyHierPart]

/-- What it accepts begins with one: the cases are those of `HierText`. -/
theorem parseHierPart_split {before s : Bytes} {result : Option Uri} {errno : Imperr}
    {next : Context} {u : Uri} (hHost : u.host = []) (hPort : u.port = -1)
    (h : parseHierPart (place before s (result.map fun _ => u) errno) = .ok (true, next)) :
    ∃ authority path rest, s = authorityText authority ++ path ++ rest ∧ HierText authority path rest := by
  rcases s with _ | ⟨c, s⟩
  · exact ⟨none, [], [], rfl, .rootless rootless_nil (boundary_nil _)⟩
  by_cases hSlash : c = slash
  · subst hSlash
    rw [parseHierPart_slash] at h
    split_ifs at h with hNil hAuthority
    · subst hNil
      exact ⟨none, [slash], [], rfl, .absolute rootless_nil (boundary_nil _)⟩
    · obtain ⟨s, rfl⟩ := List.head?_eq_some_iff.mp hAuthority
      have hAdvance : (place before (slash :: slash :: s) (result.map fun _ => u) errno).advance 2 =
          place (before ++ [slash, slash]) s (result.map fun _ => u) errno := by
        simp [place, Context.advance]
      have hBefore : before ++ [slash, slash] ≠ [] := by simp
      obtain ⟨⟨ok, mid⟩, hMid, h⟩ := bind_ok.mp h
      cases ok with
      | false => cases h
      | true =>
          rw [hAdvance] at hMid
          obtain ⟨parts, rest, rfl, hParts, hRest⟩ := parseAuthority_split hBefore hMid
          obtain ⟨errno', hRead⟩ :=
            parseAuthority_reads hParts hRest hHost hPort (before ++ [slash, slash]) hBefore result errno
          rw [hRead] at hMid
          obtain rfl := congrArg Prod.snd (Except.ok.inj hMid)
          obtain ⟨path, rest, rfl, hPath⟩ := parsePath_abempty_split h
          exact ⟨some parts, path, rest, by simp [authorityText], .authority hParts hPath⟩
    · have hRooted : (place before (slash :: s) (result.map fun _ => u) errno).rooted =
          place (before ++ [slash]) s (result.map fun _ => { u with path := u.path ++ [slash] }) errno := by
        simp [place, Context.rooted, Context.advance, Context.modify, Function.comp_def]
      rw [hRooted] at h
      obtain ⟨path, rest, rfl, hPath, hRest⟩ := parsePath_split h
      exact ⟨none, slash :: path, rest, rfl, .absolute hPath hRest⟩
  · unfold parseHierPart at h
    rw [if_neg (place_at_end.not.mpr (by simp))] at h
    obtain ⟨d, hRead, h⟩ := bind_ok.mp h
    cases (readAt_place before s c).symm.trans hRead
    rw [if_neg (by simpa using hSlash)] at h
    split_ifs at h with hChar
    · obtain ⟨path, rest, hs, hPath, hRest⟩ := parsePath_split h
      exact ⟨none, path, rest, hs, .rootless hPath hRest⟩
    · refine ⟨none, [], c :: s, rfl, .rootless rootless_nil (boundary_cons.mpr ?_)⟩
      simpa [pathOrSlash, hSlash] using hChar

end ImpactSockets.Uri
