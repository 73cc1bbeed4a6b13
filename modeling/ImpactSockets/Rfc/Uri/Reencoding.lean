import ImpactSockets.Rfc.Uri.Parts

/-! What becomes of an accepted text when one of its unreserved characters is
written as a triplet. -/
namespace ImpactSockets.Uri

open Abnf AbnfOps Ascii
open scoped Computability

/-- The triplets that encode a character, with hex digits of either case. -/
structure Triplet (c : UInt8) where
  high : UInt8
  low : UInt8
  hHigh : hexdig high = true
  hLow : hexdig low = true
  encodes : encodedByte high low = c

def Triplet.text {c : UInt8} (triplet : Triplet c) : Bytes := [percent, triplet.high, triplet.low]

/-! ### In one component -/

/-- What stands behind such a text is no digit of a triplet. -/
def Whole (before : Bytes) : Prop := before ∈ Grammar.encodedText fun c => c != percent

variable {before after : Bytes} {c : UInt8}

/-- A cut between triplets cuts the normal form. -/
theorem percentNormal_append (h : Whole before) (fold : UInt8 → UInt8) (rest : Bytes) :
    percentNormal fold (before ++ rest) = percentNormal fold before ++ percentNormal fold rest := by
  refine @encodedText_induction _ (fun before => percentNormal fold (before ++ rest) =
    percentNormal fold before ++ percentNormal fold rest) rfl ?_ ?_ before h
  · intro c tail hc ih
    have hNe : c ≠ percent := by simpa using hc
    rw [List.cons_append, percentNormal_plain hNe, ih, percentNormal_plain hNe, List.cons_append]
  · intro high low tail hHigh hLow ih
    rw [List.cons_append, List.cons_append, List.cons_append, percentNormal_triplet, ih, percentNormal_triplet,
      List.append_assoc]

theorem lowered_append (h : Whole before) (rest : Bytes) :
    lowered (before ++ rest) = lowered before ++ lowered rest := by
  refine @encodedText_induction _ (fun before => lowered (before ++ rest) = lowered before ++ lowered rest)
    rfl ?_ ?_ before h
  · intro c tail hc ih
    have hNe : c ≠ percent := by simpa using hc
    rw [List.cons_append, lowered_plain hNe, ih, lowered_plain hNe, List.cons_append]
  · intro high low tail hHigh hLow ih
    rw [List.cons_append, List.cons_append, List.cons_append, lowered_triplet, ih, lowered_triplet, List.append_assoc]

/-- Behind whole triplets a text may be replaced by another one. -/
theorem append_mem_of_whole {plain : UInt8 → Bool} (hPercent : plain percent = false)
    (hHex : ∀ c, hexdig c = true → plain c = true) (h : Whole before) {rest : Bytes} :
    before ++ rest ∈ Grammar.encodedText plain ↔
      (∀ c ∈ before, plain c = true ∨ c = percent) ∧ rest ∈ Grammar.encodedText plain := by
  have hMem := mem_encodedText_iff hPercent hHex false
  have hDecode : (decodeLoop false (before ++ rest) .plain).isSome = (decodeLoop false rest .plain).isSome := by
    refine @encodedText_induction _ (fun before => (decodeLoop false (before ++ rest) .plain).isSome =
      (decodeLoop false rest .plain).isSome) rfl ?_ ?_ before h
    · intro c tail hc ih
      have hNe : c ≠ percent := by simpa using hc
      rw [List.cons_append, decodeLoop_plain hNe, Option.isSome_map, ih]
    · intro high low tail hHigh hLow ih
      rw [List.cons_append, List.cons_append, List.cons_append, decodeLoop_triplet hHigh hLow, Option.isSome_map, ih]
  rw [hMem, hMem, hDecode]
  simp only [List.mem_append, or_imp, forall_and, and_assoc]

/-- A character in a text of a class may be written as a triplet. -/
theorem triplet_mem {plain : UInt8 → Bool} (hPercent : plain percent = false)
    (hHex : ∀ c, hexdig c = true → plain c = true) (h : Whole before) (hc : c ≠ percent) (triplet : Triplet c)
    (hText : before ++ c :: after ∈ Grammar.encodedText plain) :
    before ++ (triplet.text ++ after) ∈ Grammar.encodedText plain := by
  rw [append_mem_of_whole hPercent hHex h] at hText ⊢
  refine ⟨hText.1, triplet_mem_encodedText triplet.hHigh triplet.hLow ?_⟩
  have hBehind := hText.2
  rw [mem_encodedText_iff hPercent hHex false, List.forall_mem_cons, decodeLoop_plain hc, Option.isSome_map] at hBehind
  exact (mem_encodedText_iff hPercent hHex false after).mpr ⟨hBehind.1.2, hBehind.2⟩

set_option maxRecDepth 4000 in
theorem unreserved_not_reserved : ∀ c : UInt8, unreserved c = true → reserved c = false ∧ c ≠ percent := by
  decide

/-- The triplet of an unreserved character is decoded to it. -/
theorem normalTriplet_of_unreserved (hc : unreserved c = true) (triplet : Triplet c) (fold : UInt8 → UInt8) :
    normalTriplet fold triplet.high triplet.low = [fold c] := by
  obtain ⟨hReserved, hPercent⟩ := unreserved_not_reserved c hc
  simp [normalTriplet, triplet.encodes, hReserved, hPercent]

/-- Decoding a triplet of an unreserved character gives the character. -/
theorem percentNormal_reencoded (h : Whole before) (hc : unreserved c = true) (triplet : Triplet c) :
    percentNormal id (before ++ (triplet.text ++ after)) = percentNormal id (before ++ c :: after) := by
  have hNe := (unreserved_not_reserved c hc).2
  rw [percentNormal_append h, percentNormal_append h, percentNormal_plain hNe]
  change percentNormal id before ++ percentNormal id (percent :: triplet.high :: triplet.low :: after) = _
  rw [percentNormal_triplet, normalTriplet_of_unreserved hc, List.singleton_append]

/-- In a host only what stands for itself is lower-cased. -/
theorem lowered_reencoded (h : Whole before) (hc : unreserved c = true) (triplet : Triplet c) :
    lowered (before ++ (triplet.text ++ after)) = lowered (before ++ c :: after) ↔ upper c = false := by
  have hNe := (unreserved_not_reserved c hc).2
  rw [lowered_append h, lowered_append h, lowered_plain hNe]
  change lowered before ++ lowered (percent :: triplet.high :: triplet.low :: after) = _ ↔ _
  rw [lowered_triplet, normalTriplet_of_unreserved hc, id, List.append_cancel_left_eq, List.singleton_append,
    List.cons.injEq, and_iff_left rfl, eq_comm, tolower_eq_self]

/-! ### In a path -/

theorem hexdig_ne_slash {d : UInt8} (h : hexdig d = true) : d ≠ slash := by
  rintro rfl
  cases h

theorem head_reencoded {d : UInt8} (hd : d ≠ percent) (triplet : Triplet c)
    (h : (before ++ (triplet.text ++ after)).head? = some d) : (before ++ c :: after).head? = some d := by
  rcases before with _ | ⟨e, before⟩
  · exact (hd (Option.some.inj h).symm).elim
  · exact h

/-- A triplet in place of a character puts no two slashes in a row. -/
theorem SingleSlashed.reencoded (triplet : Triplet c) (h : SingleSlashed (before ++ c :: after)) :
    SingleSlashed (before ++ (triplet.text ++ after)) := by
  have hPercent : percent ≠ slash := by decide
  induction before with
  | nil =>
      have hAfter := (singleSlashed_cons.mp h).2
      have hLow : SingleSlashed (triplet.low :: after) :=
        singleSlashed_cons.mpr ⟨fun hEq => (hexdig_ne_slash triplet.hLow hEq).elim, hAfter⟩
      have hHigh : SingleSlashed (triplet.high :: triplet.low :: after) :=
        singleSlashed_cons.mpr ⟨fun hEq => (hexdig_ne_slash triplet.hHigh hEq).elim, hLow⟩
      exact singleSlashed_cons.mpr ⟨fun hEq => (hPercent hEq).elim, hHigh⟩
  | cons d before ih =>
      obtain ⟨hHead, hRest⟩ := singleSlashed_cons.mp h
      apply singleSlashed_cons.mpr
      refine ⟨fun hd hNext => hHead hd (head_reencoded hPercent.symm triplet hNext), ih hRest⟩

theorem hexdig_ne_percent (d : UInt8) (h : hexdig d = true) : (d != percent) = true := by
  have hNe : d ≠ percent := by
    rintro rfl
    cases h
  simpa using hNe

theorem whole_of_cons {d : UInt8} (hd : d ≠ percent) (h : Whole (d :: before)) : Whole before := by
  have hMem := @mem_encodedText_iff (fun c => c != percent) (by decide) hexdig_ne_percent false
  rw [Whole, hMem, List.forall_mem_cons, decodeLoop_plain hd, Option.isSome_map] at h
  exact (hMem before).mpr ⟨h.1.2, h.2⟩

/-- A rootless path stays one. -/
theorem Rootless.reencoded (hWhole : Whole before) (hc : unreserved c = true) (triplet : Triplet c)
    (h : Rootless (before ++ c :: after)) : Rootless (before ++ (triplet.text ++ after)) := by
  have hNe := (unreserved_not_reserved c hc).2
  constructor
  · exact triplet_mem encodable_pathPlain.percent encodable_pathPlain.hexdig hWhole hNe triplet h.encoded
  · exact fun hHead => h.head (head_reencoded (by decide) triplet hHead)
  · exact h.slashed.reencoded triplet
  · intro tail hEq
    rcases before with _ | ⟨d, _ | ⟨e, before⟩⟩
    · exact absurd (List.cons.inj hEq).1 (by decide)
    · exact absurd (List.cons.inj (List.cons.inj hEq).2).1 (by decide)
    · obtain ⟨rfl, hRest⟩ := List.cons.inj hEq
      obtain ⟨rfl, _⟩ := List.cons.inj hRest
      exact h.colon _ rfl

/-- Behind a slash. -/
theorem Rootless.reencoded_behind {path : Bytes} (hPath : before ++ c :: after = slash :: path) (hWhole : Whole before)
    (hc : unreserved c = true) (triplet : Triplet c) (h : Rootless path) :
    ∃ other, before ++ (triplet.text ++ after) = slash :: other ∧ Rootless other := by
  rcases before with _ | ⟨d, before⟩
  · obtain ⟨rfl, _⟩ := List.cons.inj hPath
    cases hc
  · obtain ⟨rfl, rfl⟩ := List.cons.inj hPath
    exact ⟨_, rfl, h.reencoded (whole_of_cons (by decide) hWhole) hc triplet⟩

/-- A hierarchical part stays one of its kind. -/
theorem HierText.reencoded {authority : Option AuthorityText} {rest : Bytes} (hWhole : Whole before)
    (hc : unreserved c = true) (triplet : Triplet c) (h : HierText authority (before ++ c :: after) rest) :
    HierText authority (before ++ (triplet.text ++ after)) rest := by
  generalize hPath : before ++ c :: after = path at h
  cases h with
  | rootless hText hRest =>
      subst hPath
      exact .rootless (hText.reencoded hWhole hc triplet) hRest
  | absolute hText hRest =>
      obtain ⟨other, hOther, hRootless⟩ := hText.reencoded_behind hPath hWhole hc triplet
      rw [hOther]
      exact .absolute hRootless hRest
  | authority hParts hText =>
      rcases hText with ⟨rfl, _⟩ | ⟨tail, rfl, hTail, hRest⟩
      · simp at hPath
      · obtain ⟨other, hOther, hRootless⟩ := hTail.reencoded_behind hPath hWhole hc triplet
        rw [hOther]
        exact .authority hParts (.inr ⟨other, rfl, hRootless, hRest⟩)

/-- What is behind the hierarchical part is only looked at at its start. -/
theorem HierText.congr {authority : Option AuthorityText} {path rest other : Bytes} (h : HierText authority path rest)
    (hHead : other.head? = rest.head?) : HierText authority path other := by
  have hBoundary {known : UInt8 → Bool} (hRest : Boundary known rest) : Boundary known other := by
    rw [Boundary, hHead]
    exact hRest
  cases h with
  | rootless hText hRest => exact .rootless hText (hBoundary hRest)
  | absolute hText hRest => exact .absolute hText (hBoundary hRest)
  | authority hParts hText =>
      rcases hText with ⟨rfl, hRest⟩ | ⟨tail, rfl, hTail, hRest⟩
      · exact .authority hParts (.inl ⟨rfl, hHead ▸ hRest⟩)
      · exact .authority hParts (.inr ⟨tail, rfl, hTail, hBoundary hRest⟩)

/-! ### In an authority -/

/-- A host that is another name is cut in the same way. -/
theorem HostPort.Cut.rename {hostPort : HostPort} (h : hostPort.Cut) (hName : hostPort.host.head? ≠ some openBracket)
    {host : Bytes} (hHost : Unbracketed host) (hColon : colon ∉ host) : HostPort.Cut { hostPort with host := host } := by
  cases h with
  | name => exact .name hHost hColon
  | namePort _ hPort hPortColon => exact .namePort hHost hPort hPortColon
  | literal => exact (hName rfl).elim
  | literalPort => exact (hName rfl).elim

theorem regName_chars {text : Bytes} (h : text ∈ Grammar.regName) : Unbracketed text ∧ colon ∉ text := by
  have hChars := encodedText_chars encodable_regNamePlain h
  refine ⟨⟨fun hMem => ?_, fun hMem => ?_⟩, fun hMem => ?_⟩
  · exact absurd (hChars _ hMem) (by decide)
  · exact absurd (hChars _ hMem) (by decide)
  · exact absurd (hChars _ hMem) (by decide)

/-- An authority is accepted with the triplet in its host. -/
theorem AuthorityText.Accepted.rehost {authority : AuthorityText} (h : authority.Accepted)
    (hName : authority.host.head? ≠ some openBracket) (hHost : authority.host = before ++ c :: after)
    (hWhole : Whole before) (hc : unreserved c = true) (triplet : Triplet c) :
    AuthorityText.Accepted { authority with host := before ++ (triplet.text ++ after) } := by
  have hRegName : authority.host ∈ Grammar.regName :=
    h.host.resolve_right fun hBracketed => hName hBracketed.head
  rw [hHost] at hRegName
  have hOther := triplet_mem encodable_regNamePlain.percent encodable_regNamePlain.hexdig hWhole
    (unreserved_not_reserved c hc).2 triplet hRegName
  obtain ⟨hUnbracketed, hColon⟩ := regName_chars hOther
  exact ⟨h.userinfo, h.cut.rename hName hUnbracketed hColon, .inl hOther, h.port, h.skipped, h.trailing⟩

/-- An authority is accepted with the triplet in its userinfo. -/
theorem AuthorityText.Accepted.reuser {authority : AuthorityText} (h : authority.Accepted)
    (hUserinfo : authority.userinfo = some (before ++ c :: after)) (hWhole : Whole before) (hc : unreserved c = true)
    (triplet : Triplet c) :
    AuthorityText.Accepted { authority with userinfo := some (before ++ (triplet.text ++ after)) } := by
  refine ⟨?_, h.cut, h.host, h.port, h.skipped, h.trailing⟩
  intro text hText
  obtain rfl := Option.some.inj hText
  exact triplet_mem encodable_userinfoPlain.percent encodable_userinfoPlain.hexdig hWhole
    (unreserved_not_reserved c hc).2 triplet (h.userinfo _ hUserinfo)

end ImpactSockets.Uri
