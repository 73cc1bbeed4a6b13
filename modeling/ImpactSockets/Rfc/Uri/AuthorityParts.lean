import ImpactSockets.Rfc.Uri.Reading

/-! The parsers of the parts of an authority, each of which is given its part
only. -/
namespace ImpactSockets.Uri

open Abnf AbnfOps Ascii
open scoped Computability

/-- The parser accepts the whole text, and makes `v` of the result `u`. -/
def ReadsAll (parser : Context → Exec Parsed) (text : Bytes) (u v : Uri) : Prop :=
  ∀ (result : Option Uri) (errno : Imperr), ∃ last,
    parser ⟨0, text, result.map fun _ => u, errno⟩ = .ok (true, last) ∧
      last.result = result.map fun _ => v

/-! ### Userinfo -/

/-- The characters of userinfo that are not part of a triplet. -/
def userinfoPlain (c : UInt8) : Bool := unreserved c || subDelims c || c == colon

set_option maxRecDepth 4000 in
theorem encodable_userinfoPlain : Encodable userinfoPlain := by
  constructor <;> decide

/-- The characters that are checked are the plain ones and the percent sign. -/
theorem userinfoChar_iff (c : UInt8) : userinfoChar c = true ↔ userinfoPlain c = true ∨ c = percent := by
  simp only [userinfoChar, userinfoPlain, Bool.or_eq_true, beq_iff_eq]
  tauto

/-- `_S_parse_userinfo` accepts the words of the production and stores their normal form. -/
theorem parseUserinfo_reads {text : Bytes} (h : text ∈ Grammar.userinfo) (u : Uri) :
    ReadsAll parseUserinfo text u { u with userinfo := percentNormal id text } := by
  intro result errno
  have hChars := encodedText_chars encodable_userinfoPlain h
  have hAll : text.all userinfoChar = true :=
    List.all_eq_true.mpr fun c hc => (userinfoChar_iff c).mpr (hChars c hc)
  have hOk := (percentDecode_iff encodable_userinfoPlain hChars false errno).mpr h
  refine ⟨_, (if_neg (by simp [hAll])).trans (congrArg Except.ok (Prod.ext hOk rfl)), ?_⟩
  simp [Context.modify, Function.comp_def, percentDecode_normal encodable_userinfoPlain h]

/-- `_S_parse_userinfo` accepts only words of the production. -/
theorem parseUserinfo_split {text : Bytes} {result : Option Uri} {errno : Imperr} {last : Context}
    (h : parseUserinfo ⟨0, text, result, errno⟩ = .ok (true, last)) : text ∈ Grammar.userinfo := by
  unfold parseUserinfo at h
  split_ifs at h with hAll
  · exact (fail_ne h).elim
  · have hChars : ∀ c ∈ text, userinfoPlain c = true ∨ c = percent := by
      simpa [← userinfoChar_iff] using hAll
    exact (percentDecode_iff encodable_userinfoPlain hChars false errno).mp
      (congrArg Prod.fst (Except.ok.inj h))

/-! ### Host -/

/-- The characters of a reg-name that are not part of a triplet. -/
def regNamePlain (c : UInt8) : Bool := unreserved c || subDelims c

/-- The characters of any host that are not part of a triplet. -/
def hostPlain (c : UInt8) : Bool :=
  regNamePlain c || c == colon || c == openBracket || c == closeBracket

set_option maxRecDepth 4000 in
theorem encodable_regNamePlain : Encodable regNamePlain := by
  constructor <;> decide

set_option maxRecDepth 4000 in
theorem encodable_hostPlain : Encodable hostPlain := by
  constructor <;> decide

/-- The characters that are checked in a registered name are the plain ones and the percent sign. -/
theorem regNameChar_iff (c : UInt8) : regNameChar c = true ↔ regNamePlain c = true ∨ c = percent := by
  simp only [regNameChar, regNamePlain, Bool.or_eq_true, beq_iff_eq]

/-- A host in brackets that the parser of IP literals accepts. -/
structure BracketedHost (text : Bytes) : Prop where
  head : text.head? = some openBracket
  accepted : ∃ errno, parseIpLiteral text = .ok (true, errno)
  encoded : text ∈ Grammar.encodedText hostPlain

/-- What the host parser accepts. -/
def HostText (text : Bytes) : Prop := text ∈ Grammar.regName ∨ BracketedHost text

/-- A host is made of plain characters and triplets. -/
theorem HostText.encoded {text : Bytes} (h : HostText text) : text ∈ Grammar.encodedText hostPlain := by
  rcases h with h | h
  · exact encodedText_mono encodable_regNamePlain encodable_hostPlain (fun c hc => by simp [hostPlain, hc]) h
  · exact h.encoded

/-- The verdict on the characters of a host that is not empty. -/
def hostVerdict (text : Bytes) (errno : Imperr) : Exec Verdict :=
  if text.head? = some openBracket then parseIpLiteral text
  else .ok (if text.all regNameChar then (true, errno) else (false, .uriHostSym))

/-- `_S_parse_host` on a host that is not empty: a verdict first, then the decoding. -/
theorem parseHost_cons (c : UInt8) (tail : Bytes) (result : Option Uri) (errno : Imperr) :
    parseHost ⟨0, c :: tail, result, errno⟩ = (do
      let verdict ← hostVerdict (c :: tail) errno
      if !verdict.1 then Context.fail ⟨0, c :: tail, result, errno⟩ verdict.2
      else
        let decoded := percentDecode (c :: tail) true verdict.2
        .ok (decoded.ok, ⟨0, c :: tail, result.map fun u => { u with host := decoded.str }, decoded.errno⟩)) := by
  unfold parseHost hostVerdict
  by_cases hBracket : c = openBracket
  · subst hBracket
    rfl
  · have hHead : (c :: tail).head? ≠ some openBracket := by simpa using hBracket
    have hBeq : ¬(c == openBracket) = true := by simpa using hBracket
    rw [if_neg (by simp), if_neg hHead]
    simp only [readAt, List.getElem?_cons_zero, bind, Except.bind]
    rw [if_neg hBeq]
    cases (c :: tail).all regNameChar <;> rfl

/-- An accepted host passes the checks in front of the decoding. -/
theorem hostVerdict_of_hostText {text : Bytes} (h : HostText text) (errno : Imperr) :
    ∃ errno', hostVerdict text errno = .ok (true, errno') := by
  unfold hostVerdict
  rcases h with hName | hBracketed
  · have hChars := encodedText_chars encodable_regNamePlain hName
    refine ⟨errno, ?_⟩
    have hHead : text.head? ≠ some openBracket := by
      intro hHead
      exact absurd (hChars openBracket (List.mem_of_head? hHead)) (by decide)
    rw [if_neg hHead, if_pos (List.all_eq_true.mpr fun c hc => (regNameChar_iff c).mpr (hChars c hc))]
  · rw [if_pos hBracketed.head]
    exact hBracketed.accepted

/-- `_S_parse_host` accepts such a host and stores it in small letters. -/
theorem parseHost_reads {text : Bytes} (h : HostText text) {u : Uri} (hHost : u.host = []) :
    ReadsAll parseHost text u { u with host := lowered text } := by
  intro result errno
  rcases text with _ | ⟨c, tail⟩
  · have hNil : lowered [] = u.host := hHost.symm
    exact ⟨_, if_pos rfl, by rw [hNil]⟩
  · obtain ⟨errno', hVerdict⟩ := hostVerdict_of_hostText h errno
    have hChars := encodedText_chars encodable_hostPlain h.encoded
    have hOk := (percentDecode_iff encodable_hostPlain hChars true errno').mpr h.encoded
    rw [parseHost_cons, hVerdict]
    refine ⟨_, congrArg Except.ok (Prod.ext hOk rfl), ?_⟩
    simp [Function.comp_def, percentDecode_lowered encodable_hostPlain h.encoded]

/-- Among the texts of host characters, only a host is accepted. -/
theorem parseHost_split {text : Bytes} {result : Option Uri} {errno : Imperr} {last : Context}
    (hText : ∀ c ∈ text, hostPlain c = true ∨ c = percent)
    (h : parseHost ⟨0, text, result, errno⟩ = .ok (true, last)) : HostText text := by
  rcases text with _ | ⟨c, tail⟩
  · exact .inl (Language.nil_mem_kstar _)
  · rw [parseHost_cons] at h
    obtain ⟨⟨ok, errno'⟩, hVerdict, h⟩ := bind_ok.mp h
    cases ok with
    | false => exact (fail_ne h).elim
    | true =>
        have hOk : (percentDecode (c :: tail) true errno').ok = true :=
          congrArg Prod.fst (Except.ok.inj h)
        unfold hostVerdict at hVerdict
        split_ifs at hVerdict with hHead hAll
        · exact .inr ⟨hHead, ⟨errno', hVerdict⟩, (percentDecode_iff encodable_hostPlain hText true errno').mp hOk⟩
        · have hChars : ∀ d ∈ c :: tail, regNamePlain d = true ∨ d = percent := fun d hd =>
            (regNameChar_iff d).mp (List.all_eq_true.mp hAll d hd)
          exact .inl ((percentDecode_iff encodable_regNamePlain hChars true errno').mp hOk)
        · cases hVerdict

/-! ### Port -/

/-- A port is given by its digits, of which there are at most 9. -/
def PortText (text : Bytes) : Prop := text ∈ Grammar.port ∧ text.length ≤ 9

/-- One more digit at the end. -/
theorem decimalValue_concat (digits : Bytes) (c : UInt8) :
    decimalValue (digits ++ [c]) = 10 * decimalValue digits + (c.toNat - 0x30) := by
  simp [decimalValue]

/-- n digits denote a number below 10^n. -/
theorem decimalValue_lt {digits : Bytes} (h : ∀ c ∈ digits, digit c = true) :
    decimalValue digits < 10 ^ digits.length := by
  induction digits using List.reverseRecOn with
  | nil => simp [decimalValue]
  | append_singleton digits c ih =>
      have hDigit : c.toNat - 0x30 < 10 := by
        have hc := h c (by simp)
        simp only [digit, Bool.and_eq_true, decide_eq_true_eq, UInt8.le_iff_toNat_le] at hc
        have := hc.2
        simp at this
        omega
      have hRest := ih fun d hd => h d (List.mem_append_left _ hd)
      rw [decimalValue_concat, List.length_append, List.length_singleton, pow_succ]
      omega

/-- The port that the digits of an authority give. -/
def portNumber (text : Bytes) : Int := if text = [] then -1 else decimalValue text

/-- `_S_parse_port` accepts at most nine digits, which `stoi` can read. -/
theorem parsePort_reads {text : Bytes} (h : PortText text) {u : Uri} (hPort : u.port = -1) :
    ReadsAll parsePort text u { u with port := portNumber text } := by
  intro result errno
  have hDigits := mem_kstar_oneOf.mp h.1
  have hAll : text.all digit = true := List.all_eq_true.mpr hDigits
  unfold parsePort
  rw [if_neg (by simp [hAll]), if_neg (by have := h.2; simpa using this)]
  by_cases hNil : text = []
  · have hSame : { u with port := portNumber text } = u := by simp [portNumber, hNil, ← hPort]
    exact ⟨_, if_neg (by simp [hNil]), by rw [hSame]⟩
  · cases result with
    | none => exact ⟨_, if_neg (by simp), rfl⟩
    | some _ =>
        have hLt : decimalValue text < 2 ^ 31 :=
          (decimalValue_lt hDigits).trans_le ((Nat.pow_le_pow_right (by decide) h.2).trans (by decide))
        have hStoi : stoi text = .ok (decimalValue text : Int) := if_pos ⟨by simpa using hNil, hAll, hLt⟩
        refine ⟨_, (if_pos ⟨rfl, by simpa using hNil⟩).trans (bind_ok.mpr ⟨_, hStoi, rfl⟩), ?_⟩
        simp [Context.modify, portNumber, hNil]

/-- Other characters than digits, and ten digits or more, are refused. -/
theorem parsePort_split {text : Bytes} {result : Option Uri} {errno : Imperr} {last : Context}
    (h : parsePort ⟨0, text, result, errno⟩ = .ok (true, last)) : PortText text := by
  unfold parsePort at h
  by_cases hAll : text.all digit = true
  · rw [if_neg (by simp [hAll])] at h
    by_cases hLength : text.length ≤ 9
    · exact ⟨mem_kstar_oneOf.mpr (List.all_eq_true.mp hAll), hLength⟩
    · rw [if_pos (by simpa using hLength)] at h
      exact (fail_ne h).elim
  · rw [if_pos (by simp [hAll])] at h
    exact (fail_ne h).elim

end ImpactSockets.Uri
