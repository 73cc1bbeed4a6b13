import ImpactSockets.Rfc.Uri.Equivalence
import ImpactSockets.Rfc.Uri.StoredTriplets

/-! What the text of a component means, and that both decoders keep to it: the one of the
parser, which leaves some triplets for a second pass, and the one of the `norm_` getters,
which makes that pass. -/
namespace ImpactSockets.Uri

open Abnf AbnfOps Ascii

/-! ### Signs -/

/-- A byte of a component. One that could be taken for a delimiter, or for the start of a
triplet, has another meaning where a triplet encodes it. -/
inductive Sign where
  | literal (c : UInt8)
  | escaped (c : UInt8)
deriving DecidableEq, Repr

namespace Sign

def byte : Sign → UInt8
  | .literal c => c
  | .escaped c => c

/-- The sign that a triplet stands for. -/
def ofTriplet (high low : UInt8) : Sign :=
  if reserved (encodedByte high low) || encodedByte high low == percent then .escaped (encodedByte high low)
  else .literal (encodedByte high low)

def digit (n : Nat) : UInt8 := if n < 10 then UInt8.ofNat (0x30 + n) else UInt8.ofNat (0x41 + (n - 10))

/-- The text of a sign in normal form. -/
def text : Sign → Bytes
  | .literal c => [c]
  | .escaped c => [percent, digit (c.toNat / 16), digit (c.toNat % 16)]

/-- No sign has two meanings. -/
def Proper : Sign → Prop
  | .literal c => c ≠ percent
  | .escaped c => (reserved c || c == percent) = true

end Sign

/-- The meaning of a text, where `fold` is applied to what no triplet encodes. -/
def meaning (fold : UInt8 → UInt8) : Bytes → List Sign
  | c :: high :: low :: rest =>
      if c == percent then .ofTriplet high low :: meaning fold rest
      else .literal (fold c) :: meaning fold (high :: low :: rest)
  | rest => rest.map fun c => .literal (fold c)

/-- A plain character means itself. -/
theorem meaning_plain {c : UInt8} (h : c ≠ percent) (fold : UInt8 → UInt8) (rest : Bytes) :
    meaning fold (c :: rest) = .literal (fold c) :: meaning fold rest := by
  rcases rest with _ | ⟨high, _ | ⟨low, rest⟩⟩
  · rfl
  · rfl
  · rw [meaning, if_neg (by simpa using h)]

/-- A triplet means the character that it encodes, or itself. -/
theorem meaning_triplet (fold : UInt8 → UInt8) (high low : UInt8) (rest : Bytes) :
    meaning fold (percent :: high :: low :: rest) = .ofTriplet high low :: meaning fold rest := by
  rw [meaning, if_pos (by simp)]

/-! ### The text of a meaning -/

set_option maxRecDepth 4000 in
theorem hexValue_spec : ∀ c : UInt8, hexdig c = true → hexValue c < 16 ∧ Sign.digit (hexValue c) = toupper c := by
  decide

set_option maxRecDepth 4000 in
/-- The digits of a byte are read as the byte. -/
theorem digits_spec : ∀ c : UInt8,
    encodedByte (Sign.digit (c.toNat / 16)) (Sign.digit (c.toNat % 16)) = c ∧
      nibbleByte (Sign.digit (c.toNat / 16)) (Sign.digit (c.toNat % 16)) = c := by
  decide

theorem toNat_encodedByte {high low : UInt8} (hHigh : hexdig high = true) (hLow : hexdig low = true) :
    (encodedByte high low).toNat = 16 * hexValue high + hexValue low := by
  have hHighLt := (hexValue_spec high hHigh).1
  have hLowLt := (hexValue_spec low hLow).1
  rw [encodedByte, UInt8.toNat_ofNat']
  omega

/-- The sign of a triplet is written as its normal form. -/
theorem text_ofTriplet {high low : UInt8} (hHigh : hexdig high = true) (hLow : hexdig low = true) :
    (Sign.ofTriplet high low).text = normalTriplet id high low := by
  have hValue := toNat_encodedByte hHigh hLow
  obtain ⟨hHighLt, hHighDigit⟩ := hexValue_spec high hHigh
  obtain ⟨hLowLt, hLowDigit⟩ := hexValue_spec low hLow
  have hFirst : (encodedByte high low).toNat / 16 = hexValue high := by omega
  have hSecond : (encodedByte high low).toNat % 16 = hexValue low := by omega
  rw [Sign.ofTriplet, normalTriplet]
  split_ifs with hKept
  · rw [Sign.text, hFirst, hSecond, hHighDigit, hLowDigit]
  · rfl

theorem proper_ofTriplet (high low : UInt8) : (Sign.ofTriplet high low).Proper := by
  rw [Sign.ofTriplet]
  split_ifs with hKept
  · exact hKept
  · rw [Bool.or_eq_true, not_or, beq_iff_eq] at hKept
    exact hKept.2

/-- The normal form writes what the text means. -/
theorem percentNormal_eq_text {s : Bytes} (h : Whole s) : percentNormal id s = (meaning id s).flatMap Sign.text := by
  refine @encodedText_induction _ (fun s => percentNormal id s = (meaning id s).flatMap Sign.text) rfl ?_ ?_ s h
  · intro c rest hc ih
    have hNe : c ≠ percent := bne_iff_ne.mp hc
    rw [percentNormal_plain hNe, meaning_plain hNe, ih]
    rfl
  · intro high low rest hHigh hLow ih
    rw [percentNormal_triplet, meaning_triplet, List.flatMap_cons, text_ofTriplet hHigh hLow, ih]

/-- The lowered host writes what its text means without regard to case. -/
theorem lowered_eq_text {s : Bytes} (h : Whole s) : lowered s = (meaning tolower s).flatMap Sign.text := by
  refine @encodedText_induction _ (fun s => lowered s = (meaning tolower s).flatMap Sign.text) rfl ?_ ?_ s h
  · intro c rest hc ih
    have hNe : c ≠ percent := bne_iff_ne.mp hc
    rw [lowered_plain hNe, meaning_plain hNe, ih]
    rfl
  · intro high low rest hHigh hLow ih
    rw [lowered_triplet, meaning_triplet, List.flatMap_cons, text_ofTriplet hHigh hLow, ih]

theorem meaning_proper {fold : UInt8 → UInt8} (hFold : ∀ c, fold c = percent → c = percent) {s : Bytes} (h : Whole s) :
    ∀ sign ∈ meaning fold s, sign.Proper := by
  refine @encodedText_induction _ (fun s => ∀ sign ∈ meaning fold s, sign.Proper) (by simp [meaning]) ?_ ?_ s h
  · intro c rest hc ih
    have hNe : c ≠ percent := bne_iff_ne.mp hc
    rw [meaning_plain hNe]
    exact List.forall_mem_cons.mpr ⟨fun hEq => hNe (hFold c hEq), ih⟩
  · intro high low rest hHigh hLow ih
    rw [meaning_triplet]
    exact List.forall_mem_cons.mpr ⟨proper_ofTriplet high low, ih⟩

/-- A meaning is read back from its text. -/
theorem meaning_text {signs : List Sign} (h : ∀ sign ∈ signs, sign.Proper) :
    meaning id (signs.flatMap Sign.text) = signs := by
  induction signs with
  | nil => rfl
  | cons sign signs ih =>
      rw [List.forall_mem_cons] at h
      rw [List.flatMap_cons]
      cases sign with
      | literal c =>
          rw [Sign.text, List.singleton_append, meaning_plain h.1, ih h.2]
          rfl
      | escaped c =>
          have hKept : (reserved c || c == percent) = true := h.1
          rw [Sign.text, List.cons_append, List.cons_append, List.singleton_append, meaning_triplet, ih h.2,
            Sign.ofTriplet, (digits_spec c).1, if_pos hKept]

/-- The decoder of the `norm_` getters forgets which bytes were encoded. -/
theorem percentDecodeText_text {signs : List Sign} (h : ∀ sign ∈ signs, sign.Proper) :
    percentDecodeText (signs.flatMap Sign.text) = signs.map Sign.byte := by
  rw [percentDecodeText]
  induction signs with
  | nil => rfl
  | cons sign signs ih =>
      rw [List.forall_mem_cons] at h
      rw [List.flatMap_cons, List.map_cons]
      cases sign with
      | literal c =>
          have hNe : ¬(c == percent) = true := by
            rw [beq_iff_eq]
            exact h.1
          rw [Sign.text, List.singleton_append, decodeTextLoop, if_neg hNe, ih h.2]
          rfl
      | escaped c =>
          have hPercent : (percent == percent) = true := rfl
          rw [Sign.text, List.cons_append, List.cons_append, List.singleton_append, decodeTextLoop, if_pos hPercent,
            decodeTextLoop, decodeTextLoop, (digits_spec c).2, ih h.2]
          rfl

/-- Proper signs that are written alike are the same. -/
theorem text_inj {first second : List Sign} (hFirst : ∀ sign ∈ first, sign.Proper)
    (hSecond : ∀ sign ∈ second, sign.Proper) :
    first.flatMap Sign.text = second.flatMap Sign.text ↔ first = second := by
  refine ⟨fun hEq => ?_, congrArg _⟩
  rw [← meaning_text hFirst, hEq, meaning_text hSecond]

/-! ### Components -/

namespace Component

/-- Only the host is lower-cased. -/
def fold : Component → UInt8 → UInt8
  | .host => tolower
  | _ => id

/-- The text that the parser cuts out for a component, without the white space that
formatted input skips. -/
def raw (parts : Parts) : Component → Bytes
  | .userinfo => (parts.authority.bind fun authority => authority.userinfo).getD []
  | .host => (parts.authority.map fun authority => authority.host).getD []
  | .path => parts.path
  | .query => parts.query.getD []
  | .fragment => visible parts.fragment

def stored (u : Uri) : Component → Bytes
  | .userinfo => u.userinfo
  | .host => u.host
  | .path => u.path
  | .query => u.query
  | .fragment => u.fragment

def norm (u : Uri) : Component → Bytes
  | .userinfo => normUserinfo u
  | .host => normHost u
  | .path => normPath u
  | .query => normQuery u
  | .fragment => normFragment u

def meaning (component : Component) (parts : Parts) : List Sign := Uri.meaning component.fold (component.raw parts)

theorem norm_eq (component : Component) (u : Uri) : component.norm u = percentDecodeText (component.stored u) := by
  cases component <;> rfl

theorem fold_percent (component : Component) (c : UInt8) : component.fold c = percent → c = percent := by
  cases component
  case host => exact tolower_percent c
  all_goals exact id

end Component

theorem whole_of_encoded {plain : UInt8 → Bool} (hPlain : Encodable plain) {s : Bytes}
    (h : s ∈ Grammar.encodedText plain) : Whole s := by
  refine @encodedText_induction plain Whole (Language.nil_mem_kstar _) ?_ ?_ s h
  · intro c rest hc hRest
    refine cons_mem_encodedText (bne_iff_ne.mpr ?_) hRest
    rintro rfl
    rw [hPlain.percent] at hc
    cases hc
  · exact fun high low rest hHigh hLow hRest => triplet_mem_encodedText hHigh hLow hRest

theorem Parts.Accepted.authority_accepted {parts : Parts} (h : parts.Accepted) {authority : AuthorityText}
    (hSome : parts.authority = some authority) : authority.Accepted := by
  have hHier := h.hier
  rw [hSome] at hHier
  exact hHier.authority_accepted.1

/-- The components of an accepted text have whole triplets. -/
theorem raw_whole {parts : Parts} (h : parts.Accepted) (component : Component) : Whole (component.raw parts) := by
  have hNil : Whole [] := Language.nil_mem_kstar _
  cases component with
  | userinfo =>
      rw [Component.raw]
      cases hSome : parts.authority with
      | none => exact hNil
      | some authority =>
          cases hUserinfo : authority.userinfo with
          | none => simpa [hUserinfo] using hNil
          | some userinfo =>
              have hMem := (h.authority_accepted hSome).userinfo userinfo hUserinfo
              simpa [hUserinfo] using whole_of_encoded encodable_userinfoPlain hMem
  | host =>
      rw [Component.raw]
      cases hSome : parts.authority with
      | none => exact hNil
      | some authority => exact whole_of_encoded encodable_hostPlain (h.authority_accepted hSome).host.encoded
  | path => exact whole_of_encoded encodable_pathPlain h.hier.path_encoded
  | query =>
      rw [Component.raw]
      cases hSome : parts.query with
      | none => exact hNil
      | some query => exact whole_of_encoded encodable_queryPlain (h.query query hSome)
  | fragment => exact h.fragment

/-- The removal of dot segments has nothing to do in the path. -/
def Component.Settled (component : Component) (parts : Parts) : Prop :=
  component = .path → Undotted (percentNormal id parts.path)

theorem meaning_all_proper {parts : Parts} (h : parts.Accepted) (component : Component) :
    ∀ sign ∈ component.meaning parts, sign.Proper :=
  meaning_proper component.fold_percent (raw_whole h component)

/-- What is stored for an accepted text. -/
theorem stored_eq_text {ports : SchemePorts} {parts : Parts} (h : parts.Accepted) {u v : Uri} {prior errno : Imperr}
    (hParse : parse ports parts.text (some u) prior = .ok (true, some v, errno)) {component : Component}
    (hSettled : component.Settled parts) : component.stored v = (component.meaning parts).flatMap Sign.text := by
  obtain ⟨last, hText⟩ := parse_text h ports u prior
  rw [hText] at hParse
  obtain ⟨path, hPath, hOk⟩ := bind_ok.mp hParse
  obtain rfl : parts.value ports path = v := Option.some.inj (congrArg (fun outcome => outcome.2.1) (Except.ok.inj hOk))
  have hWhole := raw_whole h component
  cases component with
  | userinfo => exact percentNormal_eq_text hWhole
  | host => exact lowered_eq_text hWhole
  | path =>
      rw [(pathNormalize_eq_self_iff _).mpr (hSettled rfl)] at hPath
      obtain rfl := Except.ok.inj hPath
      exact percentNormal_eq_text hWhole
  | query => exact percentNormal_eq_text hWhole
  | fragment => exact percentNormal_eq_text hWhole

/-! ### What parsing keeps -/

/-- The text "a://b" with a query behind it. -/
def queried (query : Bytes) : Parts := { plainHost with query := some query }

theorem queried_accepted {query : Bytes} (h : query ∈ Grammar.query) : (queried query).Accepted where
  scheme := plainHost_accepted.scheme
  hier := .authority (plainHost_accepted.authority_accepted rfl)
    (.inl ⟨rfl, by simp [queried, plainHost, Parts.queryText]⟩)
  query := by simpa [queried] using h
  rest := boundary_nil _
  fragment := Language.nil_mem_kstar _

theorem triplet_mem_query {high low : UInt8} (hHigh : hexdig high = true) (hLow : hexdig low = true) :
    [percent, high, low] ∈ Grammar.query :=
  triplet_mem_encodedText hHigh hLow (Language.nil_mem_kstar _)

/-- The two decoders together make one pass over the text: the getters give the bytes that
the text means. -/
theorem norm_meaning {ports : SchemePorts} {parts : Parts} (h : parts.Accepted) {u v : Uri} {prior errno : Imperr}
    (hParse : parse ports parts.text (some u) prior = .ok (true, some v, errno)) {component : Component}
    (hSettled : component.Settled parts) : component.norm v = (component.meaning parts).map Sign.byte := by
  rw [component.norm_eq, stored_eq_text h hParse hSettled, percentDecodeText_text (meaning_all_proper h component)]

/-- The query of "a://b?%2f" is "/" to its getter. -/
theorem norm_meaning_slash :
    Component.query.norm ⟨[0x61], [], [0x62], [], [percent, 0x32, 0x46], [], -1, true, false⟩ =
      (Component.query.meaning (queried [percent, 0x32, 0x66])).map Sign.byte :=
  @norm_meaning ⟨[], [], -1⟩ (queried [percent, 0x32, 0x66]) (queried_accepted (triplet_mem_query rfl rfl)) empty _
    .success .success (by decide +kernel) .query (by simp [Component.Settled])

/-- Two accepted texts are stored as the same component exactly if they mean the same there. -/
theorem stored_eq_iff {ports ports' : SchemePorts} {parts parts' : Parts} (h : parts.Accepted) (h' : parts'.Accepted)
    {u v u' v' : Uri} {prior errno prior' errno' : Imperr}
    (hParse : parse ports parts.text (some u) prior = .ok (true, some v, errno))
    (hParse' : parse ports' parts'.text (some u') prior' = .ok (true, some v', errno')) {component : Component}
    (hSettled : component.Settled parts) (hSettled' : component.Settled parts') :
    component.stored v = component.stored v' ↔ component.meaning parts = component.meaning parts' := by
  rw [stored_eq_text h hParse hSettled, stored_eq_text h' hParse' hSettled']
  exact text_inj (meaning_all_proper h component) (meaning_all_proper h' component)

/-- A slash and a triplet that encodes one are two queries. -/
theorem stored_eq_iff_slash :
    ([slash] : Bytes) = [percent, 0x32, 0x46] ↔
      Component.query.meaning (queried [slash]) = Component.query.meaning (queried [percent, 0x32, 0x66]) :=
  @stored_eq_iff ⟨[], [], -1⟩ ⟨[], [], -1⟩ (queried [slash]) (queried [percent, 0x32, 0x66])
    (queried_accepted (cons_mem_encodedText (by decide) (Language.nil_mem_kstar _)))
    (queried_accepted (triplet_mem_query rfl rfl)) empty
    ⟨[0x61], [], [0x62], [], [slash], [], -1, true, false⟩ empty
    ⟨[0x61], [], [0x62], [], [percent, 0x32, 0x46], [], -1, true, false⟩ .success .success .success .success
    (by decide +kernel) (by decide +kernel) .query (by simp [Component.Settled]) (by simp [Component.Settled])

end ImpactSockets.Uri
