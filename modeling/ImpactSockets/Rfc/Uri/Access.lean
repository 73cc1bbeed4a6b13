import ImpactSockets.Rfc.Uri.IndexedLiteral
import ImpactSockets.Rfc.Uri.ParseEffect

/-! No index of the URI parsers leaves its text, and no port is out of range. -/
namespace ImpactSockets.Uri

open AbnfOps Ascii Total

/-- There is no port, or one of at most nine digits. -/
def PortInRange (result : Option Uri) : Prop := ∀ u ∈ result, u.port = -1 ∨ 0 ≤ u.port ∧ u.port ≤ 999999999

theorem PortInRange.map {result : Option Uri} (h : PortInRange result) {f : Uri → Uri}
    (hPort : ∀ u, (f u).port = u.port) : PortInRange (result.map f) := by
  intro v hv
  obtain ⟨u, hu, rfl⟩ := Option.mem_map.mp hv
  rw [hPort]
  exact h u hu

/-- The same return value and context, in which the port is in range. -/
def SameParsed (parsed parsed' : Parsed) : Prop := parsed = parsed' ∧ PortInRange parsed'.2.result

/-- The same but for the index, which is not looked at again. -/
def SamePart (parsed parsed' : Parsed) : Prop :=
  parsed.1 = parsed'.1 ∧ parsed.2.result = parsed'.2.result ∧ parsed.2.errno = parsed'.2.errno ∧
    PortInRange parsed'.2.result

theorem follows_modify {ctx : Context} {ok : Bool} {f : Uri → Uri} (h : PortInRange ctx.result)
    (hPort : ∀ u, (f u).port = u.port) :
    Follows SameParsed (.ok (ok, ctx.modify f) : Indexed.Guarded Parsed) (.ok (ok, ctx.modify f) : Exec Parsed) :=
  follows_ok ⟨rfl, h.map hPort⟩

/-- A value that both runs have. -/
theorem Mirrors.andThen {α β γ : Type} {run : Indexed.Guarded α} {run' : Exec α} {after : β → γ → Prop}
    {next : α → Indexed.Guarded β} {next' : α → Exec γ} (h : Mirrors run run')
    (hNext : ∀ a, run' = .ok a → Follows after (next a) (next' a)) : Follows after (run >>= next) (run' >>= next') := by
  apply Follows.bind h
  rintro a _ hRun rfl
  exact hNext a hRun

/-! ### The parts of the authority -/

section Parts

variable {data : Bytes} {result : Option Uri} {errno : Imperr}

/-- The test behind a loop over all of a text. -/
theorem scanWhile_whole (known : UInt8 → Bool) (data : Bytes) :
    scanWhile known data 0 < data.length ↔ data.all known = false := by
  have hInside := scanWhile_inside known data 0
  rwa [Nat.zero_add] at hInside

theorem follows_whole {α β : Type} {related : α → β → Prop} {known : UInt8 → Bool} {first second : Indexed.Guarded α}
    {first' second' : Exec β} (hFirst : data.all known = false → Follows related first first')
    (hSecond : data.all known = true → Follows related second second') :
    Follows related (if scanWhile known data 0 < data.length then first else second)
      (if !data.all known then first' else second') := by
  cases hAll : data.all known with
  | false =>
      rw [if_pos ((scanWhile_whole known data).mpr hAll)]
      exact hFirst hAll
  | true =>
      rw [if_neg (fun h => by simp [(scanWhile_whole known data).mp h] at hAll)]
      exact hSecond hAll

/-- The userinfo is parsed with the same result, and without a fault in the indices. -/
theorem follows_parseUserinfo (h : PortInRange result) :
    Follows SamePart (Indexed.parseUserinfo ⟨0, data, result, errno⟩) (parseUserinfo ⟨0, data, result, errno⟩) := by
  unfold Indexed.parseUserinfo parseUserinfo
  rw [scanWhile_eq, List.drop_zero]
  refine @follows_whole data _ _ _ userinfoChar _ _ _ _ (fun _ => ?_) fun _ => ?_
  · exact follows_ok ⟨rfl, rfl, rfl, h⟩
  · exact follows_ok ⟨rfl, rfl, rfl, h.map fun _ => rfl⟩

/-- The host is parsed with the same result, and without a fault in the indices. -/
theorem follows_parseHost (h : PortInRange result) :
    Follows SamePart (Indexed.parseHost ⟨0, data, result, errno⟩) (parseHost ⟨0, data, result, errno⟩) := by
  unfold Indexed.parseHost parseHost
  apply follows_ite
  · exact fun _ => follows_ok ⟨rfl, rfl, rfl, h⟩
  intro _
  apply (mirrors_read data 0).andThen
  intro c _
  by_cases hc : (c == openBracket) = true
  · rw [if_pos hc, if_pos hc]
    apply (mirrors_parseIpLiteral data).andThen
    rintro ⟨ok, verdict⟩ _
    cases ok with
    | false => exact follows_ok ⟨rfl, rfl, rfl, h⟩
    | true => exact follows_ok ⟨rfl, rfl, rfl, h.map fun _ => rfl⟩
  · rw [if_neg hc, if_neg hc, scanWhile_eq, List.drop_zero]
    have hWhole := scanWhile_whole regNameChar data
    change Follows _ (if scanWhile regNameChar data 0 < data.length then _ else _) _
    cases hAll : data.all regNameChar with
    | false =>
        rw [if_pos (hWhole.mpr hAll)]
        exact follows_ok ⟨rfl, rfl, rfl, h⟩
    | true =>
        rw [if_neg (hWhole.not.mpr (by simp [hAll]))]
        exact follows_ok ⟨rfl, rfl, rfl, h.map fun _ => rfl⟩

/-- `std::stoi` is called on one to nine digits, which stand for an `int`. -/
theorem stoi_digits {digits : Bytes} (hDigits : digits.all digit = true) (hShort : digits.length ≤ 9)
    (hNe : digits.length ≠ 0) :
    Indexed.stoi digits = .ok (decimalValue digits) ∧ stoi digits = .ok (decimalValue digits) ∧
      decimalValue digits ≤ 999999999 := by
  have hLt : decimalValue digits < 10 ^ 9 :=
    (decimalValue_lt (List.all_eq_true.mp hDigits)).trans_le (Nat.pow_le_pow_right (by decide) hShort)
  refine ⟨?_, ?_, by omega⟩
  · rw [Indexed.stoi, if_pos ⟨Nat.pos_of_ne_zero hNe, hShort, hDigits⟩]
  · rw [stoi, if_pos ⟨hNe, hDigits, hLt.trans (by decide)⟩]

/-- The port is parsed with the same result, and without a fault in the indices. -/
theorem follows_parsePort (h : PortInRange result) :
    Follows SamePart (Indexed.parsePort ⟨0, data, result, errno⟩) (parsePort ⟨0, data, result, errno⟩) := by
  unfold Indexed.parsePort parsePort
  rw [scanWhile_eq, List.drop_zero]
  refine @follows_whole data _ _ _ digit _ _ _ _ (fun _ => ?_) fun hAll => ?_
  · exact follows_ok ⟨rfl, rfl, rfl, h⟩
  have hEnd : scanWhile digit data 0 = data.length := by
    have hBounds := scanWhile_bounds digit data 0
    have hNot := (scanWhile_whole digit data).not.mpr (by simp [hAll])
    omega
  rw [hEnd]
  apply follows_ite
  · exact fun _ => follows_ok ⟨rfl, rfl, rfl, h⟩
  intro hShort
  apply follows_ite
  · rintro ⟨_, hNe⟩
    obtain ⟨hIndexed, hStoi, hRange⟩ := stoi_digits hAll (Nat.le_of_not_lt hShort) hNe
    rw [hStoi]
    change Follows _ (Indexed.stoi data >>= _) _
    rw [hIndexed]
    refine follows_ok ⟨rfl, rfl, rfl, ?_⟩
    intro v hv
    obtain ⟨u, _, rfl⟩ := Option.mem_map.mp hv
    exact .inr ⟨Int.natCast_nonneg _, Int.ofNat_le.mpr hRange⟩
  · exact fun _ => follows_ok ⟨rfl, rfl, rfl, h⟩

end Parts

/-! ### The authority -/

theorem scanAuthority_behind (before rest : Bytes) (st : AuthorityScan) :
    Indexed.scanAuthority (before ++ rest) before.length st = .ok (scanAuthority rest before.length st) := by
  induction rest generalizing before st with
  | nil => rw [Indexed.scanAuthority, dif_neg (by simp), scanAuthority]
  | cons c rest ih =>
      have hNext (st : AuthorityScan) := ih (before ++ [c]) st
      simp only [List.append_assoc, List.singleton_append, List.length_append, List.length_singleton] at hNext
      rw [Indexed.scanAuthority, dif_pos (by simp), read_behind, scanAuthority]
      change (if c == at_ then _ else _) = _
      split_ifs
      all_goals first
        | rfl
        | exact hNext _

/-- The scan with an index is the scan of what is left. -/
theorem scanAuthority_eq (data : Bytes) (i : Nat) (st : AuthorityScan) :
    Indexed.scanAuthority data i st = .ok (scanAuthority (data.drop i) i st) := by
  refine @anywhere_drop (fun data i rest => Indexed.scanAuthority data i st = .ok (scanAuthority rest i st))
    (fun before rest => scanAuthority_behind before rest st) ?_ data i
  intro data i hPast
  rw [Indexed.scanAuthority, dif_neg (by omega), scanAuthority]

/-- The index of the port's colon is decreased behind a bracket. -/
theorem mirrors_splitHost (data : Bytes) (lastIdx currentIdx : Nat) (st : AuthorityScan) :
    Mirrors (Indexed.splitHost data lastIdx currentIdx st) (splitHost data lastIdx currentIdx st) := by
  unfold Indexed.splitHost splitHost
  apply follows_ite
  · intro _
    apply follows_ite
    · intro hBehind
      rw [minus_eq (by omega)]
      apply mirrors_unless
      intro _
      apply (mirrors_cut data _ _).bind
      intro port _
      exact (mirrors_cut data _ _).bind fun host _ => mirrors_ok _
    · intro _
      exact (mirrors_cut data _ _).bind fun host _ => mirrors_ok _
  · intro _
    apply follows_ite
    · intro _
      apply (mirrors_cut data _ _).bind
      intro port _
      exact (mirrors_cut data _ _).bind fun host _ => mirrors_ok _
    · intro _
      exact (mirrors_cut data _ _).bind fun host _ => mirrors_ok _

theorem mirrors_splitAuthority (data : Bytes) (start currentIdx : Nat) (st : AuthorityScan) :
    Mirrors (Indexed.splitAuthority data start currentIdx st) (splitAuthority data start currentIdx st) := by
  unfold Indexed.splitAuthority splitAuthority
  apply mirrors_unless
  intro _
  apply mirrors_unless
  intro _
  apply mirrors_unless
  intro _
  apply follows_ite
  · intro _
    apply (mirrors_cut data start st.atIndex).bind
    intro userinfo _
    exact (mirrors_splitHost data _ currentIdx st).bind fun located _ => mirrors_ok _
  · intro _
    exact (mirrors_splitHost data start currentIdx st).bind fun located _ => mirrors_ok _

/-- The authority begins behind a character, so that the index in front of it is none below zero. -/
theorem follows_parseAuthority {ctx : Context} (hStart : 0 < ctx.currentIdx) (h : PortInRange ctx.result) :
    Follows SameParsed (Indexed.parseAuthority ctx) (parseAuthority ctx) := by
  unfold Indexed.parseAuthority parseAuthority
  have hNone : sizePred ctx.currentIdx = ctx.currentIdx - 1 := if_neg (by omega)
  rw [minus_eq hStart, hNone]
  change Follows SameParsed (Indexed.scanAuthority ctx.data ctx.currentIdx _ >>= _) _
  rw [scanAuthority_eq]
  dsimp only
  generalize scanAuthority (ctx.data.drop ctx.currentIdx) ctx.currentIdx _ = scan
  obtain ⟨currentIdx, scanned⟩ := scan
  rcases scanned with errno | st
  · exact follows_ok ⟨rfl, h⟩
  change Follows SameParsed (Indexed.splitAuthority ctx.data ctx.currentIdx currentIdx st >>= _)
    (splitAuthority ctx.data ctx.currentIdx currentIdx st >>= _)
  apply (mirrors_splitAuthority ctx.data ctx.currentIdx currentIdx st).andThen
  rintro (errno | parts) _
  · exact follows_ok ⟨rfl, h⟩
  apply Follows.bind (follows_parseUserinfo h)
  rintro ⟨userinfoOk, temp⟩ ⟨_, temp'⟩ _ ⟨rfl, hResult, hErrno, hRange⟩
  rw [hResult, hErrno]
  apply Follows.bind (follows_parseHost hRange)
  rintro ⟨hostOk, temp⟩ ⟨_, temp'⟩ _ ⟨rfl, hResult, hErrno, hRange⟩
  rw [hResult, hErrno]
  apply Follows.bind (follows_parsePort hRange)
  rintro ⟨portOk, temp⟩ ⟨_, temp'⟩ _ ⟨rfl, hResult, hErrno, hRange⟩
  rw [hResult, hErrno]
  exact follows_modify hRange fun _ => rfl

/-! ### The components -/

theorem follows_parseScheme {ctx : Context} (h : PortInRange ctx.result) :
    Follows SameParsed (Indexed.parseScheme ctx) (parseScheme ctx) := by
  obtain ⟨currentIdx, data, result, errno⟩ := ctx
  unfold Indexed.parseScheme parseScheme
  apply (mirrors_read data currentIdx).andThen
  intro c _
  apply follows_ite
  · exact fun _ => follows_ok ⟨rfl, h⟩
  intro _
  rw [scanWhile_eq]
  cases result with
  | none =>
      apply follows_ahead
      intro scheme _
      exact follows_ok ⟨rfl, h⟩
  | some u =>
      apply (mirrors_cut data currentIdx _).andThen
      intro scheme _
      exact follows_ok ⟨rfl, @PortInRange.map (some u) h (fun u => { u with scheme := scheme }) fun _ => rfl⟩

theorem scanPath_behind (before rest : Bytes) (count : Nat) :
    Indexed.scanPath (before ++ rest) before.length count = .ok (scanPath rest before.length count) := by
  induction rest generalizing before count with
  | nil => rw [Indexed.scanPath, dif_neg (by simp), scanPath]
  | cons c rest ih =>
      have hNext (count : Nat) := ih (before ++ [c]) count
      simp only [List.append_assoc, List.singleton_append, List.length_append, List.length_singleton] at hNext
      rw [Indexed.scanPath, dif_pos (by simp), read_behind, scanPath]
      change (if pathChar c then _ else _) = _
      split_ifs
      · exact hNext (count + 1)
      · rfl
      · exact hNext 0
      · rfl

theorem scanPath_eq (data : Bytes) (i count : Nat) :
    Indexed.scanPath data i count = .ok (scanPath (data.drop i) i count) := by
  refine @anywhere_drop (fun data i rest => Indexed.scanPath data i count = .ok (scanPath rest i count))
    (fun before rest => scanPath_behind before rest count) ?_ data i
  intro data i hPast
  rw [Indexed.scanPath, dif_neg (by omega), scanPath]

section Components

variable {ctx : Context}

theorem follows_parseSegments (h : PortInRange ctx.result) (lastIdx i : Nat) :
    Follows SameParsed (Indexed.parseSegments ctx lastIdx i) (parseSegments ctx lastIdx i) := by
  unfold Indexed.parseSegments parseSegments
  rw [scanPath_eq]
  generalize scanPath (ctx.data.drop i) i 0 = scan
  obtain ⟨next, ok⟩ := scan
  cases ok with
  | false => exact follows_ok ⟨rfl, h⟩
  | true =>
      apply (mirrors_cut ctx.data lastIdx next).andThen
      intro path _
      exact follows_ok ⟨rfl, h.map fun _ => rfl⟩

theorem follows_parseRootless (h : PortInRange ctx.result) (lastIdx i : Nat) (allowColon : Bool) :
    Follows SameParsed (Indexed.parseRootless ctx lastIdx i allowColon) (parseRootless ctx lastIdx i allowColon) := by
  unfold Indexed.parseRootless parseRootless
  apply (mirrors_read ctx.data i).andThen
  intro c _
  apply follows_ite
  · exact fun _ => follows_ok ⟨rfl, h⟩
  intro _
  apply follows_ite
  · intro _
    exact follows_ite (fun _ => follows_parseSegments h lastIdx (i + 1)) fun _ => follows_ok ⟨rfl, h⟩
  · exact fun _ => follows_parseSegments h lastIdx i

/-- The path is parsed with the same result, with and without a root. -/
theorem follows_parsePath (h : PortInRange ctx.result) (expectRoot allowColon : Bool) :
    Follows SameParsed (Indexed.parsePath ctx expectRoot allowColon) (parsePath ctx expectRoot allowColon) := by
  unfold Indexed.parsePath parsePath
  apply follows_ite
  · exact fun _ => follows_ok ⟨rfl, h⟩
  intro _
  apply (mirrors_read ctx.data ctx.currentIdx).andThen
  intro c _
  apply follows_ite
  · intro _
    apply follows_ite
    · exact fun _ => follows_ok ⟨rfl, h⟩
    intro _
    apply follows_ite
    · exact fun _ => follows_ok ⟨rfl, h⟩
    intro _
    apply follows_ite
    · exact fun _ => follows_ok ⟨rfl, h⟩
    intro _
    apply follows_ite
    · exact fun _ => follows_ok ⟨rfl, h.map fun _ => rfl⟩
    · exact fun _ => follows_parseRootless h ctx.currentIdx (ctx.currentIdx + 1) allowColon
  · exact fun _ => follows_parseRootless h ctx.currentIdx ctx.currentIdx allowColon

/-- The hierarchical part is parsed with the same result. -/
theorem follows_parseHierPart (h : PortInRange ctx.result) :
    Follows SameParsed (Indexed.parseHierPart ctx) (parseHierPart ctx) := by
  unfold Indexed.parseHierPart parseHierPart
  apply follows_ite
  · exact fun _ => follows_ok ⟨rfl, h⟩
  intro _
  apply (mirrors_read ctx.data ctx.currentIdx).andThen
  intro c _
  have hRooted : PortInRange ((ctx.advance 1).modify fun u => { u with path := u.path ++ [slash] }).result :=
    h.map fun _ => rfl
  apply follows_ite
  · intro _
    apply follows_ite
    · exact fun _ => follows_ok ⟨rfl, hRooted⟩
    intro _
    apply (mirrors_read ctx.data (ctx.currentIdx + 1)).andThen
    intro d _
    apply follows_ite
    · intro _
      apply (@follows_parseAuthority (ctx.advance 2) (Nat.succ_pos _) h).bind
      rintro ⟨ok, afterAuthority⟩ _ _ ⟨rfl, hRange⟩
      cases ok with
      | false => exact follows_ok ⟨rfl, hRange⟩
      | true => exact follows_parsePath hRange true true
    · exact fun _ => follows_parsePath hRooted false true
  · intro _
    exact follows_ite (fun _ => follows_parsePath h false true) fun _ => follows_ok ⟨rfl, h⟩

theorem follows_parseQuery (h : PortInRange ctx.result) :
    Follows SameParsed (Indexed.parseQuery ctx) (parseQuery ctx) := by
  unfold Indexed.parseQuery parseQuery
  rw [scanWhile_eq]
  apply (mirrors_cut ctx.data ctx.currentIdx _).andThen
  intro query _
  exact follows_ok ⟨rfl, h.map fun _ => rfl⟩

theorem follows_parseFragment (h : PortInRange ctx.result) :
    Follows SameParsed (Indexed.parseFragment ctx) (parseFragment ctx) := by
  unfold Indexed.parseFragment parseFragment
  apply follows_ite
  · intro _
    apply (mirrors_cut ctx.data ctx.currentIdx ctx.data.length).andThen
    intro fragment _
    exact follows_ok ⟨rfl, h.map fun _ => rfl⟩
  · exact fun _ => follows_ok ⟨rfl, h⟩

theorem follows_parseColon (h : PortInRange ctx.result) :
    Follows SameParsed (Indexed.parseColon ctx) (parseColon ctx) := by
  unfold Indexed.parseColon parseColon
  apply follows_ite
  · exact fun _ => follows_ok ⟨rfl, h⟩
  intro _
  apply (mirrors_read ctx.data ctx.currentIdx).andThen
  intro c _
  exact follows_ite (fun _ => follows_ok ⟨rfl, h⟩) fun _ => follows_ok ⟨rfl, h⟩

/-- A component behind a delimiter. -/
theorem follows_parseBehind {parse : Context → Indexed.Guarded Parsed} {parse' : Context → Exec Parsed}
    (hParse : ∀ ctx : Context, PortInRange ctx.result → Follows SameParsed (parse ctx) (parse' ctx))
    (h : PortInRange ctx.result) (delimiter : UInt8) :
    Follows SameParsed (Indexed.parseBehind delimiter parse ctx) (parseBehind delimiter parse' ctx) := by
  unfold Indexed.parseBehind parseBehind
  by_cases hInside : ctx.currentIdx < ctx.data.length
  · obtain ⟨_, hRead, rfl⟩ := mirrors_read ctx.data ctx.currentIdx ctx.data[ctx.currentIdx]
      (by rw [readAt, List.getElem?_eq_getElem hInside])
    rw [if_pos hInside, hRead, List.getElem?_eq_getElem hInside]
    change Follows _ (if _ then _ else _) _
    simp only [Option.some.injEq, beq_iff_eq]
    exact follows_ite (fun _ => hParse (ctx.advance 1) h) fun _ => follows_ok ⟨rfl, h⟩
  · rw [if_neg hInside, List.getElem?_eq_none (Nat.le_of_not_lt hInside)]
    exact follows_ok ⟨rfl, h⟩

theorem follows_unlessFailed {first second : Context → Indexed.Guarded Parsed} {first' second' : Context → Exec Parsed}
    (hFirst : ∀ ctx : Context, PortInRange ctx.result → Follows SameParsed (first ctx) (first' ctx))
    (hSecond : ∀ ctx : Context, PortInRange ctx.result → Follows SameParsed (second ctx) (second' ctx))
    (ctx : Context) (h : PortInRange ctx.result) :
    Follows SameParsed (Indexed.unlessFailed first second ctx) (unlessFailed first' second' ctx) := by
  unfold Indexed.unlessFailed unlessFailed
  apply (hFirst ctx h).bind
  rintro ⟨ok, next⟩ _ _ ⟨rfl, hRange⟩
  exact follows_ite (fun _ => follows_ok ⟨rfl, hRange⟩) fun _ => hSecond next hRange

/-- The parsers in front of `_S_post_parse`. -/
theorem follows_readComponents (h : PortInRange ctx.result) :
    Follows SameParsed
      (Indexed.unlessFailed Indexed.parseScheme (Indexed.unlessFailed Indexed.parseColon
        (Indexed.unlessFailed Indexed.parseHierPart (Indexed.unlessFailed
          (Indexed.parseBehind question Indexed.parseQuery) (Indexed.parseBehind hash Indexed.parseFragment)))) ctx)
      (readComponents ctx) := by
  have hQuery (ctx : Context) (h : PortInRange ctx.result) :=
    follows_parseBehind (fun ctx h => @follows_parseQuery ctx h) h question
  have hFragment (ctx : Context) (h : PortInRange ctx.result) :=
    follows_parseBehind (fun ctx h => @follows_parseFragment ctx h) h hash
  have hBehind := follows_unlessFailed hQuery hFragment
  have hHierPart := follows_unlessFailed (fun ctx h => @follows_parseHierPart ctx h) hBehind
  have hColon := follows_unlessFailed (fun ctx h => @follows_parseColon ctx h) hHierPart
  exact follows_unlessFailed (fun ctx h => @follows_parseScheme ctx h) hColon ctx h

end Components

/-- A run with indices comes to its end, and is one without them. -/
theorem indexed_readComponents {s : Bytes} (hs : s ≠ []) (result : Option Uri) (errno : Imperr) :
    ∃ ok ctx, Indexed.parseUri ⟨0, s, result, errno⟩ = .ok (ok, ctx) ∧
      readComponents ⟨0, s, result.map clear, .success⟩ = .ok (ok, ctx) ∧ PortInRange ctx.result := by
  have hCleared : PortInRange (result.map clear) := by
    intro v hv
    obtain ⟨u, _, rfl⟩ := Option.mem_map.mp hv
    exact .inl rfl
  obtain ⟨effect, hDoes, _⟩ := readComponents_effect hs
  have hEnds := hDoes (result.map clear) .success
  obtain ⟨⟨ok, ctx⟩, hRun, hSame, hRange⟩ :=
    @follows_readComponents ⟨0, s, result.map clear, .success⟩ hCleared _ hEnds
  rw [← hSame] at hEnds hRange
  refine ⟨ok, ctx, ?_, hEnds, hRange⟩
  rw [Indexed.parseUri]
  exact (if_neg (by simpa [Context.modify] using hs)).trans hRun

/-- What the parsers with indices do is what `_S_parse_uri` does in front of
`_S_post_parse`. -/
theorem parseUri_indexed (ports : SchemePorts) {s : Bytes} (hs : s ≠ []) {result : Option Uri} {errno : Imperr}
    {ok : Bool} {ctx : Context} (h : Indexed.parseUri ⟨0, s, result, errno⟩ = .ok (ok, ctx)) :
    parseUri ports ⟨0, s, result, errno⟩ =
      if ok then do
        let last ← postParse ports ctx
        .ok (true, last)
      else .ok (false, ctx) := by
  obtain ⟨_, _, hIndexed, hRead, _⟩ := indexed_readComponents hs result errno
  cases h.symm.trans hIndexed
  rw [parseUri_of_ne_nil hs, parseComponents_eq_read, unlessFailed]
  change (readComponents ⟨0, s, result.map clear, .success⟩ >>= _) = _
  rw [hRead]
  cases ok <;> rfl

/-- Every access of the parsers is inside its text, on every string, and the
port that they leave is in range. -/
theorem parseUri_inside (s : Bytes) (result : Option Uri) (errno : Imperr) :
    ∃ ok ctx, Indexed.parseUri ⟨0, s, result, errno⟩ = .ok (ok, ctx) ∧ PortInRange ctx.result := by
  by_cases hs : s = []
  · subst hs
    refine ⟨true, _, rfl, ?_⟩
    intro v hv
    obtain ⟨u, _, rfl⟩ := Option.mem_map.mp hv
    exact .inl rfl
  · obtain ⟨ok, ctx, hRun, _, hRange⟩ := indexed_readComponents hs result errno
    exact ⟨ok, ctx, hRun, hRange⟩

end ImpactSockets.Uri
