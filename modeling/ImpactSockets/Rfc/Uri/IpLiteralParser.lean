import ImpactSockets.Rfc.Uri.Ipv6Grammar
import ImpactSockets.Rfc.Uri.Reading

/-! The texts that the parser of IP literals accepts. It reads IPv6 addresses
backwards, so what its locals describe there is the end of the text. -/
namespace ImpactSockets.Uri

open Abnf AbnfOps Ascii
open scoped Computability

/-- A group has one to four hexadecimal digits. -/
theorem mem_h16 {w : Bytes} : w ∈ Grammar.h16 ↔ w ≠ [] ∧ w.length ≤ 4 ∧ ∀ c ∈ w, hexdig c = true := by
  rw [Grammar.h16, Language.mem_mul]
  constructor
  · rintro ⟨_, ⟨c, hc, rfl⟩, rest, hRest, rfl⟩
    obtain ⟨k, hk, hRest⟩ := mem_upTo.mp hRest
    obtain ⟨hLength, hRest⟩ := mem_oneOf_pow.mp hRest
    refine ⟨by simp, ?_, List.forall_mem_cons.mpr ⟨hc, hRest⟩⟩
    rw [List.length_append, List.length_singleton]
    omega
  · rintro ⟨hNe, hLength, hChars⟩
    obtain ⟨c, rest, rfl⟩ := List.exists_cons_of_ne_nil hNe
    rw [List.forall_mem_cons] at hChars
    rw [List.length_cons] at hLength
    exact ⟨[c], ⟨c, hChars.1, rfl⟩, rest, mem_upTo.mpr ⟨rest.length, by omega, mem_oneOf_pow.mpr ⟨rfl, hChars.2⟩⟩, rfl⟩

/-- `":" h16`. -/
def colonH16 : Language UInt8 := literal [colon] * Grammar.h16

theorem groups_succ (n : Nat) : Grammar.groups (n + 1) = Grammar.h16 * colonH16 ^ n :=
  (separated_eq Grammar.h16 (literal [colon]) n).symm

/-- A group that is complete moves behind a colon. -/
theorem colon_cons_mem {digits tail : Bytes} {n : Nat} (hDigits : digits ∈ Grammar.h16)
    (hTail : tail ∈ colonH16 ^ n) : colon :: (digits ++ tail) ∈ colonH16 ^ (n + 1) :=
  mem_pow_succ.mpr ⟨colon :: digits, mem_literal_mul.mpr ⟨digits, hDigits, rfl⟩, tail, hTail, rfl⟩

theorem colonH16_pow_succ {tail : Bytes} {n : Nat} (h : tail ∈ colonH16 ^ (n + 1)) :
    ∃ back ∈ Grammar.groups (n + 1), tail = colon :: back := by
  obtain ⟨first, hFirst, rest, hRest, rfl⟩ := mem_pow_succ.mp h
  obtain ⟨digits, hDigits, rfl⟩ := mem_literal_mul.mp hFirst
  refine ⟨digits ++ rest, ?_, rfl⟩
  rw [groups_succ]
  exact Language.append_mem_mul hDigits hRest

/-! ### Groups -/

/-- What the locals of the loop at the label `hex` say about the text that has
been read: the digits of a group that may go on, groups behind colons, and no
more or, unless the loop has been entered behind an elision, an elision and
groups. -/
inductive HexRead (behindElision : Bool) : Bytes → HexState → Prop where
  | groups {digits tail : Bytes} {n : Nat} (hDigits : ∀ c ∈ digits, hexdig c = true) (hLength : digits.length ≤ 4)
      (hTail : tail ∈ colonH16 ^ n) :
      HexRead behindElision (digits ++ tail) ⟨digits.length, n, behindElision, false⟩
  | elided {digits tail back : Bytes} {n k : Nat} {atZero : Bool} (hEntered : behindElision = false)
      (hDigits : ∀ c ∈ digits, hexdig c = true) (hLength : digits.length ≤ 4) (hTail : tail ∈ colonH16 ^ n)
      (hBack : back ∈ Grammar.groups (k + 1)) (hZero : atZero = true → digits = [] ∧ tail = []) :
      HexRead behindElision (digits ++ tail ++ colon :: colon :: back) ⟨digits.length, n + k, true, atZero⟩

theorem HexRead.behindElision {w : Bytes} {st : HexState} (h : HexRead true w st) :
    st.havePlaceholder = true := by
  cases h <;> rfl

/-- One more digit of a group. -/
theorem HexRead.digit {behindElision : Bool} {w : Bytes} {st : HexState} (h : HexRead behindElision w st)
    {c : UInt8} (hc : hexdig c = true) (hCount : st.hcnt < 4) (hFlag : st.pIdxZ = false) :
    HexRead behindElision (c :: w) { st with hcnt := st.hcnt + 1 } := by
  cases h with
  | @groups digits tail n hDigits _ hTail =>
      exact @HexRead.groups behindElision (c :: digits) tail n (List.forall_mem_cons.mpr ⟨hc, hDigits⟩) hCount hTail
  | @elided digits tail back n k atZero hEntered hDigits _ hTail hBack _ =>
      obtain rfl : atZero = false := hFlag
      exact @HexRead.elided behindElision (c :: digits) tail back n k false hEntered
        (List.forall_mem_cons.mpr ⟨hc, hDigits⟩) hCount hTail hBack (by simp)

/-- A colon in front of a group. -/
theorem HexRead.colon {behindElision : Bool} {w : Bytes} {st : HexState} (h : HexRead behindElision w st)
    (hCount : 0 < st.hcnt) (hFlag : st.pIdxZ = false) :
    HexRead behindElision (Ascii.colon :: w) { st with hcnt := 0, hgrp := st.hgrp + 1 } := by
  cases h with
  | @groups digits tail n hDigits hLength hTail =>
      have hGroup : digits ∈ Grammar.h16 := mem_h16.mpr ⟨List.ne_nil_of_length_pos hCount, hLength, hDigits⟩
      have hNext := @HexRead.groups behindElision [] (Ascii.colon :: (digits ++ tail)) (n + 1) (by simp) (by simp)
        (colon_cons_mem hGroup hTail)
      simpa using hNext
  | @elided digits tail back n k atZero hEntered hDigits hLength hTail hBack _ =>
      have hGroup : digits ∈ Grammar.h16 := mem_h16.mpr ⟨List.ne_nil_of_length_pos hCount, hLength, hDigits⟩
      obtain rfl : atZero = false := hFlag
      have hNext := @HexRead.elided behindElision [] (Ascii.colon :: (digits ++ tail)) back (n + 1) k false hEntered
        (by simp) (by simp) (colon_cons_mem hGroup hTail) hBack (by simp)
      have hSum : (n : Int) + 1 + k = n + k + 1 := by omega
      simpa [hSum] using hNext

/-- A colon in front of a colon. -/
theorem HexRead.elision {behindElision : Bool} {w : Bytes} {st : HexState} (h : HexRead behindElision w st)
    (hCount : st.hcnt = 0) (hPlaceholder : st.havePlaceholder = false) (hNe : w ≠ []) (atZero : Bool) :
    HexRead behindElision (Ascii.colon :: w)
      { st with havePlaceholder := true, pIdxZ := atZero, hgrp := st.hgrp - 1 } := by
  cases h with
  | @groups digits tail n hDigits hLength hTail =>
      obtain rfl : digits = [] := List.length_eq_zero_iff.mp hCount
      obtain rfl : behindElision = false := hPlaceholder
      cases n with
      | zero => exact absurd (mem_pow_zero.mp hTail) hNe
      | succ k =>
          obtain ⟨back, hBack, rfl⟩ := colonH16_pow_succ hTail
          have hNext := @HexRead.elided false [] [] back 0 k atZero rfl (by simp) (by simp)
            (mem_pow_zero.mpr rfl) hBack (fun _ => ⟨rfl, rfl⟩)
          simpa using hNext
  | elided => cases hPlaceholder

/-- One iteration of the loop. The text does not end with a colon, unless the
loop has been entered behind an elision. -/
theorem HexRead.step {behindElision : Bool} {w : Bytes} {st next : HexState} (h : HexRead behindElision w st)
    {c : UInt8} (hLast : w = [] → behindElision = false → c ≠ Ascii.colon) (hFlag : st.pIdxZ = false)
    {atZero : Bool} (hStep : hexStep c atZero st = .next next) :
    HexRead behindElision (c :: w) next ∧ (next.pIdxZ = true → atZero = true) := by
  unfold hexStep at hStep
  split_ifs at hStep with hDigit hCount hColon hPositive hEight hPlaceholder
  all_goals
    injection hStep with hStep
    subst hStep
  · exact ⟨h.digit hDigit (by omega) hFlag, fun hTrue => by simp [hFlag] at hTrue⟩
  · obtain rfl : c = Ascii.colon := by simpa using hColon
    exact ⟨h.colon hPositive hFlag, fun hTrue => by simp [hFlag] at hTrue⟩
  · obtain rfl : c = Ascii.colon := by simpa using hColon
    have hZero : st.hcnt = 0 := by omega
    have hNot : st.havePlaceholder = false := by simpa using hPlaceholder
    refine ⟨h.elision hZero hNot ?_ atZero, id⟩
    rintro rfl
    cases behindElision with
    | false => exact hLast rfl rfl rfl
    | true => simp [h.behindElision] at hNot

theorem hexStep_leave {c : UInt8} {atZero : Bool} {st : HexState} (h : hexStep c atZero st = .leave) :
    c = Ascii.colon := by
  unfold hexStep at h
  split_ifs at h with hDigit hCount hColon hPositive hEight hPlaceholder
  simpa using hColon

/-- The loop over `text`, behind which `w` has been read, ends in front of it,
or at a colon that makes the parser refuse the text. -/
theorem hexLoop_split {behindElision : Bool} {text w behind : Bytes} {st last : HexState} {i : Nat}
    (hNe : text ≠ []) (h : HexRead behindElision w st) (hFlag : st.pIdxZ = false)
    (hLast : w = [] → behindElision = false → text.getLast? ≠ some Ascii.colon)
    (hRun : hexLoop (text ++ (w ++ behind)) (text.length - 1) st = .ok (some (i, last))) :
    i ≠ 0 ∨ (last.pIdxZ = false ∧ text.head? = some Ascii.colon) ∨ (i = 0 ∧ HexRead behindElision (text ++ w) last) := by
  induction text using List.reverseRecOn generalizing w st with
  | nil => exact absurd rfl hNe
  | append_singleton init c ih =>
      have hData : init ++ [c] ++ (w ++ behind) = init ++ c :: (w ++ behind) := by simp
      have hc : w = [] → behindElision = false → c ≠ Ascii.colon := by simpa using hLast
      rw [List.length_append, List.length_singleton, Nat.add_sub_cancel, hData] at hRun
      rcases init with _ | ⟨d, init⟩
      · obtain ⟨e, hRead, hRun⟩ := bind_ok.mp hRun
        cases (readAt_place [] (w ++ behind) c).symm.trans hRead
        split at hRun
        · rename_i next hStep
          obtain ⟨hNext, _⟩ := h.step hc hFlag hStep
          cases hRun
          exact .inr (.inr ⟨rfl, hNext⟩)
        · rename_i hStep
          cases hRun
          exact .inr (.inl ⟨hFlag, congrArg some (hexStep_leave hStep)⟩)
        · cases hRun
      · obtain ⟨e, hRead, hRun⟩ := bind_ok.mp hRun
        cases (readAt_place (d :: init) (w ++ behind) c).symm.trans hRead
        split at hRun
        · rename_i next hStep
          obtain ⟨hNext, hZero⟩ := h.step hc hFlag hStep
          have hNextFlag : next.pIdxZ = false := by
            cases hTrue : next.pIdxZ with
            | false => rfl
            | true => exact absurd (hZero hTrue) (by decide)
          have hSame : d :: init ++ c :: (w ++ behind) = d :: init ++ (c :: w ++ behind) := rfl
          rw [hSame] at hRun
          have hRest := ih (by simp) hNext hNextFlag (by simp) hRun
          simpa using hRest
        · cases hRun
          exact .inl (by simp)
        · cases hRun

/-- The groups that an address may write out on both sides of its elision. One
more is let through when there are groups on both sides. -/
def Fits (limit front back : Nat) : Prop :=
  front + back ≤ limit ∨ front + back = limit + 1 ∧ 0 < front ∧ 0 < back

/-- The texts that are accepted from the label `hex` on, without an elision. -/
def Unelided (haveIpv4 : Bool) (text : Bytes) : Prop :=
  haveIpv4 = false ∧ text ∈ Grammar.groups 8

/-- The texts that are accepted from the label `hex` on, with an elision in them. -/
def Elided (limit : Nat) (text : Bytes) : Prop :=
  ∃ a b, Fits limit a (b + 1) ∧ ∃ front ∈ Grammar.groups a, ∃ back ∈ Grammar.groups (b + 1),
    text = front ++ colon :: colon :: back

/-- The number of groups that an elision leaves to the others. -/
def groupLimit (haveIpv4 : Bool) : Nat := if haveIpv4 then 5 else 7

/-- A test that refuses the text has not come true. -/
theorem unless_refused {refused : Prop} [Decidable refused] {e errno : Imperr} {next : Exec Verdict} :
    (if refused then .ok (false, e) else next) = Except.ok (true, errno) ↔
      ¬refused ∧ next = .ok (true, errno) := by
  by_cases h : refused <;> simp [h]

/-- The tests behind the loop. -/
theorem parseHex_checks {text behind : Bytes} {currentIdx : Nat} {havePlaceholder haveIpv4 : Bool} {errno : Imperr}
    (hNe : text ≠ []) (h : parseHex (text ++ behind) currentIdx havePlaceholder haveIpv4 = .ok (true, errno)) :
    ∃ st, hexLoop (text ++ behind) currentIdx ⟨0, 0, havePlaceholder, false⟩ = .ok (some (0, st)) ∧
      (st.pIdxZ = false → text.head? ≠ some colon) ∧
      (st.havePlaceholder = true → st.hgrp + 1 ≤ groupLimit haveIpv4) ∧
      (st.havePlaceholder = false → haveIpv4 = false ∧ st.hgrp + 1 = 8) := by
  obtain ⟨found, hLoop, h⟩ := bind_ok.mp h
  rcases found with _ | ⟨i, st⟩
  · cases h
  · obtain ⟨hZero, h⟩ := unless_refused.mp h
    obtain rfl : i = 0 := not_not.mp hZero
    obtain ⟨c, hRead, h⟩ := bind_ok.mp h
    have hHead : text.head? = some c := by
      obtain ⟨d, tail, rfl⟩ := List.exists_cons_of_ne_nil hNe
      cases hRead
      rfl
    obtain ⟨hColon, h⟩ := unless_refused.mp h
    refine ⟨st, hLoop, ?_, ?_, ?_⟩
    · intro hFlag hEq
      rw [hHead] at hEq
      simp [hFlag, Option.some.inj hEq] at hColon
    · intro hPlaceholder
      rw [if_pos hPlaceholder] at h
      obtain ⟨hIpv4, h⟩ := unless_refused.mp h
      obtain ⟨hIpv6, _⟩ := unless_refused.mp h
      cases haveIpv4 with
      | false => simpa [groupLimit] using hIpv6
      | true => simpa [groupLimit] using hIpv4
    · intro hPlaceholder
      rw [if_neg (by simp [hPlaceholder])] at h
      obtain ⟨hIpv4, h⟩ := unless_refused.mp h
      obtain ⟨hCount, _⟩ := unless_refused.mp h
      cases haveIpv4 with
      | false => exact ⟨rfl, not_not.mp hCount⟩
      | true =>
          simp at hIpv4
          omega

/-- What the loop over the groups accepts is a text of groups. -/
theorem parseHex_split {text behind : Bytes} {havePlaceholder haveIpv4 : Bool} {errno : Imperr} (hNe : text ≠ [])
    (hLast : havePlaceholder = false → text.getLast? ≠ some colon)
    (h : parseHex (text ++ behind) (text.length - 1) havePlaceholder haveIpv4 = .ok (true, errno)) :
    (havePlaceholder = true ∧ ∃ n, n + 1 ≤ groupLimit haveIpv4 ∧ text ∈ Grammar.groups (n + 1)) ∨
      (havePlaceholder = false ∧ (Unelided haveIpv4 text ∨ Elided (groupLimit haveIpv4) text)) := by
  have hStart : HexRead havePlaceholder [] ⟨0, 0, havePlaceholder, false⟩ :=
    @HexRead.groups havePlaceholder [] [] 0 (by simp) (by simp) (mem_pow_zero.mpr rfl)
  obtain ⟨st, hLoop, hHead, hElided, hUnelided⟩ := parseHex_checks hNe h
  rcases hexLoop_split hNe hStart rfl (fun _ => hLast) hLoop with hZero | ⟨hFlag, hColon⟩ | ⟨_, hRead⟩
  · exact absurd rfl hZero
  · exact absurd hColon (hHead hFlag)
  · rw [List.append_nil] at hRead
    cases hRead with
    | @groups digits tail n hDigits hLength hTail =>
        have hGroup : digits ∈ Grammar.h16 := by
          refine mem_h16.mpr ⟨?_, hLength, hDigits⟩
          rintro rfl
          cases n with
          | zero => exact hNe (mem_pow_zero.mp hTail)
          | succ n =>
              obtain ⟨back, _, rfl⟩ := colonH16_pow_succ hTail
              exact hHead rfl rfl
        have hText : digits ++ tail ∈ Grammar.groups (n + 1) := by
          rw [groups_succ]
          exact Language.append_mem_mul hGroup hTail
        cases havePlaceholder with
        | true =>
            have hLimit := hElided rfl
            dsimp only at hLimit
            exact .inl ⟨rfl, n, by omega, hText⟩
        | false =>
            obtain ⟨hIpv4, hCount⟩ := hUnelided rfl
            obtain rfl : n = 7 := by
              dsimp only at hCount
              omega
            exact .inr ⟨rfl, .inl ⟨hIpv4, hText⟩⟩
    | @elided digits tail back n k atZero hEntered hDigits hLength hTail hBack hZero =>
        refine .inr ⟨hEntered, .inr ?_⟩
        have hLimit := hElided rfl
        dsimp only at hLimit
        by_cases hNil : digits = []
        · subst hNil
          cases n with
          | zero =>
              obtain rfl := mem_pow_zero.mp hTail
              exact ⟨0, k, .inl (by omega), [], rfl, back, hBack, rfl⟩
          | succ n =>
              obtain ⟨_, _, rfl⟩ := colonH16_pow_succ hTail
              have hFlag : atZero = false := by
                cases atZero with
                | false => rfl
                | true => exact absurd (hZero rfl).2 (by simp)
              exact absurd rfl (hHead hFlag)
        · refine ⟨n + 1, k, ?_, digits ++ tail, ?_, back, hBack, rfl⟩
          · unfold Fits
            omega
          · rw [groups_succ]
            exact Language.append_mem_mul (mem_h16.mpr ⟨hNil, hLength, hDigits⟩) hTail

/-! ### IPv4 addresses -/

/-- The octets that are accepted. Next to those of the grammar these are the
empty one, which only the first octet can be, and two digits with a leading zero. -/
def looseOctet : Language UInt8 := Grammar.decOctet + 1 + literal [0x30] * oneOf digit

/-- What the locals of the loop at the label `dec` say about an octet that may go on. -/
inductive OctetRead : OctetMode → Nat → Bytes → Prop where
  | none : OctetRead .five 0 []
  | one {mode : OctetMode} {c : UInt8} (hc : digit c = true) (hMode : mode = .five ∧ c ≤ 0x35 ∨ mode = .four) :
      OctetRead mode 1 [c]
  | two {mode : OctetMode} {b c : UInt8} (hb : digit b = true) (hc : digit c = true)
      (hFive : mode = .five → b = 0x35 ∧ c ≤ 0x35) (hFour : mode = .four → b ≤ 0x34) : OctetRead mode 2 [b, c]
  | three {mode : OctetMode} {octet : Bytes} (hOctet : octet ∈ Grammar.decOctet) : OctetRead mode 3 octet

theorem mem_decOctet {w : Bytes} :
    w ∈ Grammar.decOctet ↔ (∃ c, digit c = true ∧ w = [c]) ∨
      (∃ b c, between 0x31 0x39 b = true ∧ digit c = true ∧ w = [b, c]) ∨
      (∃ b c, digit b = true ∧ digit c = true ∧ w = [0x31, b, c]) ∨
      (∃ b c, between 0x30 0x34 b = true ∧ digit c = true ∧ w = [0x32, b, c]) ∨
      ∃ c, between 0x30 0x35 c = true ∧ w = [0x32, 0x35, c] := by
  have hPair (p q : UInt8 → Bool) (v : Bytes) :
      v ∈ oneOf p * oneOf q ↔ ∃ b c, p b = true ∧ q c = true ∧ v = [b, c] := by
    rw [Language.mem_mul]
    constructor
    · rintro ⟨_, ⟨b, hb, rfl⟩, _, ⟨c, hc, rfl⟩, rfl⟩
      exact ⟨b, c, hb, hc, rfl⟩
    · rintro ⟨b, c, hb, hc, rfl⟩
      exact ⟨[b], ⟨b, hb, rfl⟩, [c], ⟨c, hc, rfl⟩, rfl⟩
  simp only [Grammar.decOctet, Language.mem_add, mem_literal_mul, hPair, mem_oneOf, or_assoc]
  refine or_congr_right (or_congr_right (or_congr ?_ (or_congr ?_ ?_)))
  · constructor
    · rintro ⟨_, ⟨b, c, hb, hc, rfl⟩, rfl⟩
      exact ⟨b, c, hb, hc, rfl⟩
    · rintro ⟨b, c, hb, hc, rfl⟩
      exact ⟨_, ⟨b, c, hb, hc, rfl⟩, rfl⟩
  · constructor
    · rintro ⟨_, ⟨b, c, hb, hc, rfl⟩, rfl⟩
      exact ⟨b, c, hb, hc, rfl⟩
    · rintro ⟨b, c, hb, hc, rfl⟩
      exact ⟨_, ⟨b, c, hb, hc, rfl⟩, rfl⟩
  · constructor
    · rintro ⟨_, ⟨c, hc, rfl⟩, rfl⟩
      exact ⟨c, hc, rfl⟩
    · rintro ⟨c, hc, rfl⟩
      exact ⟨_, ⟨c, hc, rfl⟩, rfl⟩

theorem between_mono {first last first' last' c : UInt8} (h : between first last c = true) (hFirst : first' ≤ first)
    (hLast : last ≤ last') : between first' last' c = true := by
  simp only [between, Bool.and_eq_true, decide_eq_true_eq] at h ⊢
  exact ⟨UInt8.le_trans hFirst h.1, UInt8.le_trans h.2 hLast⟩

theorem between_le {first last c : UInt8} (h : between first last c = true) : c ≤ last := by
  simp only [between, Bool.and_eq_true, decide_eq_true_eq] at h
  exact h.2

theorem between_of_digit {c last : UInt8} (hc : digit c = true) (h : c ≤ last) : between 0x30 last c = true := by
  simp only [digit, between, Bool.and_eq_true, decide_eq_true_eq] at hc ⊢
  exact ⟨hc.1, h⟩

/-- Two digits are an octet, unless the first one is zero. -/
theorem two_digits {b c : UInt8} (hb : digit b = true) (hc : digit c = true) :
    b = 0x30 ∨ [b, c] ∈ Grammar.decOctet := by
  by_cases hZero : b = 0x30
  · exact .inl hZero
  · refine .inr (mem_decOctet.mpr (.inr (.inl ⟨b, c, ?_, hc, rfl⟩)))
    simp only [digit, between, Bool.and_eq_true, decide_eq_true_eq, UInt8.le_iff_toNat_le] at hb ⊢
    have hNe : b.toNat ≠ 0x30 := fun hEq => hZero (UInt8.toNat_inj.mp hEq)
    refine ⟨?_, hb.2⟩
    have hLower : 0x30 ≤ b.toNat := hb.1
    exact (show 0x31 ≤ b.toNat by omega)

/-- What has been read of an octet is a loose octet. -/
theorem OctetRead.loose {mode : OctetMode} {count : Nat} {octet : Bytes} (h : OctetRead mode count octet) :
    octet ∈ looseOctet := by
  simp only [looseOctet, Language.mem_add, Language.mem_one]
  cases h with
  | none => exact .inl (.inr rfl)
  | one hc _ => exact .inl (.inl (mem_decOctet.mpr (.inl ⟨_, hc, rfl⟩)))
  | @two _ b c hb hc _ _ =>
      rcases two_digits hb hc with rfl | hOctet
      · exact .inr (mem_literal_mul.mpr ⟨[c], ⟨c, hc, rfl⟩, rfl⟩)
      · exact .inl (.inl hOctet)
  | three hOctet => exact .inl (.inl hOctet)

theorem delimitOctet_next {c : UInt8} {st next : DecState} (h : delimitOctet c st = .next next) :
    c = dot ∧ next = ⟨.five, 0, st.dgrp + 1⟩ := by
  unfold delimitOctet at h
  split_ifs at h with hDot
  injection h with h
  exact ⟨by simpa using hDot, h.symm⟩

/-- A dot completes the octet, and a digit belongs to it. -/
theorem decStep_octet {mode : OctetMode} {count dgrp : Nat} {octet : Bytes} (h : OctetRead mode count octet)
    {c : UInt8} {next : DecState} (hStep : decStep c ⟨mode, count, dgrp⟩ = .next next) :
    (c = dot ∧ next = ⟨.five, 0, dgrp + 1⟩) ∨
      (OctetRead next.mode next.dcnt (c :: octet) ∧ next.dgrp = dgrp) := by
  cases h with
  | none =>
      simp only [decStep] at hStep
      split_ifs at hStep with hLow hHigh
      all_goals
        injection hStep with hStep
        subst hStep
      · exact .inr ⟨.one (between_mono hLow (by decide) (by decide)) (.inl ⟨rfl, between_le hLow⟩), rfl⟩
      · exact .inr ⟨.one (between_mono hHigh (by decide) (by decide)) (.inr rfl), rfl⟩
  | @one mode d hd hMode =>
      have hLowTens (hLow : between 0x30 0x34 c = true) : OctetRead .four 2 [c, d] :=
        .two (between_mono hLow (by decide) (by decide)) hd (fun hMode => by cases hMode) (fun _ => between_le hLow)
      have hHighTens (hDigit : digit c = true) : OctetRead .three 2 [c, d] :=
        .two hDigit hd (fun hMode => by cases hMode) (fun hMode => by cases hMode)
      rcases hMode with ⟨rfl, hd5⟩ | rfl
      · simp only [decStep] at hStep
        split_ifs at hStep with hFive hLow hHigh
        · obtain rfl := Iteration.next.inj hStep
          obtain rfl : c = 0x35 := by simpa using hFive
          exact .inr ⟨.two (by decide) hd (fun _ => ⟨rfl, hd5⟩) (fun hMode => by cases hMode), rfl⟩
        · obtain rfl := Iteration.next.inj hStep
          exact .inr ⟨hLowTens hLow, rfl⟩
        · obtain rfl := Iteration.next.inj hStep
          exact .inr ⟨hHighTens (between_mono hHigh (by decide) (by decide)), rfl⟩
        · exact .inl (delimitOctet_next hStep)
      · simp only [decStep] at hStep
        split_ifs at hStep with hLow hHigh
        · obtain rfl := Iteration.next.inj hStep
          exact .inr ⟨hLowTens hLow, rfl⟩
        · obtain rfl := Iteration.next.inj hStep
          exact .inr ⟨hHighTens (between_mono hHigh (by decide) (by decide)), rfl⟩
        · exact .inl (delimitOctet_next hStep)
  | @two mode b d hb hd hFive hFour =>
      have hOne : [0x31, b, d] ∈ Grammar.decOctet := mem_decOctet.mpr (.inr (.inr (.inl ⟨b, d, hb, hd, rfl⟩)))
      cases mode with
      | five =>
          simp only [decStep] at hStep
          split_ifs at hStep with hc
          · obtain rfl := Iteration.next.inj hStep
            obtain rfl : c = 0x32 := by simpa using hc
            obtain ⟨rfl, hd5⟩ := hFive rfl
            exact .inr ⟨.three (mem_decOctet.mpr (.inr (.inr (.inr (.inr ⟨d, between_of_digit hd hd5, rfl⟩))))), rfl⟩
          · exact .inl (delimitOctet_next hStep)
      | four =>
          simp only [decStep] at hStep
          split_ifs at hStep with hc
          · obtain rfl := Iteration.next.inj hStep
            have hc : c = 0x32 ∨ c = 0x31 := by simpa using hc
            rcases hc with rfl | rfl
            · have hTwo : [0x32, b, d] ∈ Grammar.decOctet :=
                mem_decOctet.mpr (.inr (.inr (.inr (.inl ⟨b, d, between_of_digit hb (hFour rfl), hd, rfl⟩))))
              exact .inr ⟨.three hTwo, rfl⟩
            · exact .inr ⟨.three hOne, rfl⟩
          · exact .inl (delimitOctet_next hStep)
      | three =>
          simp only [decStep] at hStep
          split_ifs at hStep with hc
          · obtain rfl := Iteration.next.inj hStep
            obtain rfl : c = 0x31 := by simpa using hc
            exact .inr ⟨.three hOne, rfl⟩
          · exact .inl (delimitOctet_next hStep)
  | three hOctet =>
      cases mode <;> exact .inl (delimitOctet_next hStep)

/-- Octets behind dots, and in front of them one that may go on. -/
def QuadRead (w : Bytes) (st : DecState) : Prop :=
  ∃ octet tail n, w = octet ++ tail ∧ OctetRead st.mode st.dcnt octet ∧ tail ∈ (literal [dot] * looseOctet) ^ n ∧
    st.dgrp = n + 1

/-- Each step reads one character more of the octets. -/
theorem QuadRead.step {w : Bytes} {st next : DecState} (h : QuadRead w st) {c : UInt8}
    (hStep : decStep c st = .next next) : QuadRead (c :: w) next := by
  obtain ⟨octet, tail, n, rfl, hOctet, hTail, hCount⟩ := h
  rcases decStep_octet hOctet hStep with ⟨rfl, rfl⟩ | ⟨hNext, hSame⟩
  · refine ⟨[], dot :: (octet ++ tail), n + 1, rfl, .none, ?_, congrArg (· + 1) hCount⟩
    exact mem_pow_succ.mpr ⟨dot :: octet, mem_literal_mul.mpr ⟨octet, hOctet.loose, rfl⟩, tail, hTail, rfl⟩
  · exact ⟨c :: octet, tail, n, rfl, hNext, hTail, hSame.trans hCount⟩

/-- Four octets with dots between them. -/
def looseQuad : Language UInt8 := looseOctet * (literal [dot] * looseOctet) ^ 3

theorem QuadRead.loose {w : Bytes} {st : DecState} (h : QuadRead w st) (hCount : st.dgrp = 4) : w ∈ looseQuad := by
  obtain ⟨octet, tail, n, rfl, hOctet, hTail, hEq⟩ := h
  obtain rfl : n = 3 := by omega
  exact Language.append_mem_mul hOctet.loose hTail

/-- The loop over `text`, behind which `w` has been read, ends in front of a text
of which the same is known: at a character that makes it leave, or at index 1. -/
theorem decLoop_split {read : Bytes → DecState → Prop}
    (hKept : ∀ {w st c next}, read w st → decStep c st = .next next → read (c :: w) next) {text w : Bytes}
    {st last : DecState} {i : Nat} (hLength : 2 ≤ text.length) (h : read w st)
    (hRun : decLoop (text ++ w) (text.length - 1) st = .ok (some (i, last))) :
    ∃ front c quad, text ++ w = front ++ c :: quad ∧ front.length = i ∧ front ≠ [] ∧ read quad last ∧
      (decStep c last = .leave ∨ i = 1) := by
  induction text using List.reverseRecOn generalizing w st with
  | nil => simp at hLength
  | append_singleton init c ih =>
      have hData : init ++ [c] ++ w = init ++ c :: w := by simp
      rw [List.length_append, List.length_singleton] at hLength
      rw [List.length_append, List.length_singleton, Nat.add_sub_cancel, hData] at hRun
      obtain ⟨d, init, rfl⟩ := List.exists_cons_of_length_pos (show 0 < init.length by omega)
      rw [List.length_cons, decLoop] at hRun
      split_ifs at hRun with hMore
      · obtain ⟨e, hRead, hRun⟩ := bind_ok.mp hRun
        cases (readAt_place (d :: init) w c).symm.trans hRead
        split at hRun
        · rename_i next hStep
          have hRest := ih (by rw [List.length_cons]; omega) (hKept h hStep) hRun
          simpa using hRest
        · rename_i hStep
          cases hRun
          exact ⟨d :: init, c, w, hData, by simp, by simp, h, .inl hStep⟩
        · cases hRun
      · cases hRun
        exact ⟨d :: init, c, w, hData, by simp, by simp, h, .inr (by omega)⟩

/-- The addresses that are accepted. -/
inductive AcceptedAddress : Bytes → Prop where
  | full {text : Bytes} (h : text ∈ Grammar.groups 8) : AcceptedAddress text
  | elided {a b : Nat} {front back : Bytes} (hFits : Fits 7 a b) (hFront : front ∈ Grammar.groups a)
      (hBack : back ∈ Grammar.groups b) : AcceptedAddress (front ++ colon :: colon :: back)
  | quad {a b : Nat} {front back quad : Bytes} (hFits : Fits 5 a b) (hFront : front ∈ Grammar.groups a)
      (hBack : back ∈ Grammar.h16Colon ^ b) (hQuad : quad ∈ looseQuad) :
      AcceptedAddress (front ++ colon :: colon :: (back ++ quad))

/-- A colon behind groups is one behind each of them. -/
theorem groups_colon {n : Nat} {text : Bytes} (h : text ∈ Grammar.groups (n + 1)) :
    text ++ [colon] ∈ Grammar.h16Colon ^ (n + 1) := by
  rw [pow_succ, Grammar.h16Colon, ← mul_assoc]
  exact Language.append_mem_mul h rfl

/-- What may stand in front of the last colon of an address with an IPv4 part. -/
def Lead (front : Bytes) : Prop :=
  ∃ a b, Fits 5 a b ∧ ∃ text ∈ Grammar.groups a, ∃ back ∈ Grammar.h16Colon ^ b,
    front ++ [colon] = text ++ colon :: colon :: back

theorem lead_of_elided {front : Bytes} (h : Elided 5 front) : Lead front := by
  obtain ⟨a, b, hFits, text, hText, back, hBack, rfl⟩ := h
  exact ⟨a, b + 1, hFits, text, hText, back ++ [colon], groups_colon hBack, by simp⟩

theorem Lead.split {front : Bytes} (h : Lead front) (quad : Bytes) :
    ∃ a b, Fits 5 a b ∧ ∃ text ∈ Grammar.groups a, ∃ back ∈ Grammar.h16Colon ^ b,
      front ++ colon :: quad = text ++ colon :: colon :: (back ++ quad) := by
  obtain ⟨a, b, hFits, text, hText, back, hBack, hEq⟩ := h
  refine ⟨a, b, hFits, text, hText, back, hBack, ?_⟩
  rw [← List.singleton_append, ← List.append_assoc, hEq]
  simp

/-- The parts of a text that is accepted from the label `dec` on. -/
theorem parseDec_parts {read : Bytes → DecState → Prop}
    (hKept : ∀ {w st c next}, read w st → decStep c st = .next next → read (c :: w) next)
    (hStart : read [] ⟨.five, 0, 1⟩) {data : Bytes} (hLength : 2 ≤ data.length) {errno : Imperr}
    (h : parseDec data (data.length - 1) = .ok (true, errno)) :
    ∃ front quad last, data = front ++ colon :: quad ∧ Lead front ∧ read quad last ∧ last.dgrp = 4 ∧
      (decStep colon last = .leave ∨ front.length = 1) := by
  obtain ⟨found, hLoop, h⟩ := bind_ok.mp h
  rcases found with _ | ⟨i, last⟩
  · cases h
  obtain ⟨hCount, h⟩ := unless_refused.mp h
  obtain ⟨front, c, quad, hData, rfl, hNe, hQuad, hEnd⟩ := decLoop_split hKept hLength hStart (by simpa using hLoop)
  rw [List.append_nil] at hData
  subst hData
  obtain ⟨e, hRead, h⟩ := bind_ok.mp h
  cases (readAt_place front quad c).symm.trans hRead
  by_cases hColon : c = colon
  · subst hColon
    refine ⟨front, quad, last, rfl, ?_, hQuad, not_not.mp hCount, hEnd⟩
    rw [if_pos (by simp)] at h
    obtain ⟨init, d, rfl⟩ := (List.eq_nil_or_concat' front).resolve_left hNe
    have hSplit : init ++ [d] ++ colon :: quad = init ++ d :: colon :: quad := by simp
    have hIndex : (init ++ [d]).length - 1 = init.length := by simp
    rw [hSplit, hIndex] at h
    obtain ⟨e, hRead, h⟩ := bind_ok.mp h
    cases (readAt_place init (colon :: quad) d).symm.trans hRead
    by_cases hElision : d = colon
    · subst hElision
      rw [if_pos (by simp)] at h
      have hText : init ++ [colon] ++ [colon] = init ++ [colon, colon] := by simp
      by_cases hNil : init = []
      · subst hNil
        exact ⟨0, 0, .inl (Nat.zero_le 5), [], rfl, [], mem_pow_zero.mpr rfl, rfl⟩
      · have hIndex : (init ++ [colon]).length - 2 = init.length - 1 := by simp
        rw [if_neg (by simpa using hNil), hIndex] at h
        rcases parseHex_split hNil (fun hFalse => by cases hFalse) h with ⟨_, n, hLimit, hFront⟩ | ⟨hFalse, _⟩
        · exact ⟨n + 1, 0, .inl hLimit, init, hFront, [], mem_pow_zero.mpr rfl, hText⟩
        · cases hFalse
    · rw [if_neg (by simpa using hElision), ← hSplit, ← hIndex] at h
      rcases parseHex_split hNe (fun _ => by simpa using hElision) h with ⟨hFalse, _⟩ | ⟨_, ⟨hFalse, _⟩ | hElided⟩
      · cases hFalse
      · cases hFalse
      · exact lead_of_elided hElided
  · rw [if_neg (by simpa using hColon)] at h
    cases h

theorem parseDec_split {data : Bytes} (hLength : 2 ≤ data.length) {errno : Imperr}
    (h : parseDec data (data.length - 1) = .ok (true, errno)) : AcceptedAddress data := by
  have hStart : QuadRead [] ⟨.five, 0, 1⟩ := ⟨[], [], 0, rfl, .none, mem_pow_zero.mpr rfl, rfl⟩
  obtain ⟨front, quad, last, rfl, hLead, hQuad, hCount, _⟩ :=
    parseDec_parts (fun hRead hStep => hRead.step hStep) hStart hLength h
  obtain ⟨a, b, hFits, text, hText, back, hBack, hEq⟩ := hLead.split quad
  rw [hEq]
  exact .quad hFits hText hBack (hQuad.loose hCount)

/-- The addresses without an IPv4 part that are accepted. -/
def PlainAddress (text : Bytes) : Prop :=
  text ∈ Grammar.groups 8 ∨ ∃ a b, Fits 7 a b ∧ ∃ front ∈ Grammar.groups a, ∃ back ∈ Grammar.groups b,
    text = front ++ colon :: colon :: back

/-- From the label `hex` on, at the end of the text. -/
theorem parseHex_whole {data : Bytes} {errno : Imperr} (hNe : data ≠ []) (hLast : data.getLast? ≠ some colon)
    (h : parseHex data (data.length - 1) false false = .ok (true, errno)) : PlainAddress data := by
  have hSplit := @parseHex_split data [] false false errno hNe (fun _ => hLast) (by simpa using h)
  rcases hSplit with ⟨hFalse, _⟩ | ⟨_, ⟨_, hGroups⟩ | ⟨a, b, hFits, front, hFront, back, hBack, rfl⟩⟩
  · cases hFalse
  · exact .inl hGroups
  · exact .inr ⟨a, b + 1, hFits, front, hFront, back, hBack, rfl⟩

/-- An accepted address is read from the label `hex` or from the label `dec` on. -/
theorem parseIpv6Address_parts {data : Bytes} {errno : Imperr} (h : parseIpv6Address data = .ok (true, errno)) :
    PlainAddress data ∨ 9 ≤ data.length ∧ parseDec data (data.length - 1) = .ok (true, errno) := by
  obtain ⟨hShort, h⟩ := unless_refused.mp h
  obtain ⟨init, last, rfl⟩ := (List.eq_nil_or_concat' data).resolve_left fun hNil => hShort (.inl (by simp [hNil]))
  obtain ⟨front, previous, rfl⟩ := (List.eq_nil_or_concat' init).resolve_left fun hNil =>
    hShort (.inr (by simp [hNil]))
  have hLast : (front ++ [previous] ++ [last]).length - 1 = (front ++ [previous]).length := by simp
  have hPrevious : (front ++ [previous]).length - 1 = front.length := by simp
  have hData : front ++ [previous] ++ [last] = front ++ previous :: [last] := by simp
  dsimp only at h
  rw [hLast, hPrevious] at h
  obtain ⟨e, hRead, h⟩ := bind_ok.mp h
  cases (readAt_place (front ++ [previous]) [] last).symm.trans hRead
  obtain ⟨e, hRead, h⟩ := bind_ok.mp h
  rw [hData] at hRead
  cases (readAt_place front [last] previous).symm.trans hRead
  by_cases hElision : (last == colon && previous == colon) = true
  · obtain ⟨rfl, rfl⟩ : last = colon ∧ previous = colon := by simpa using hElision
    refine .inl (.inr ?_)
    rw [if_pos hElision] at h
    by_cases hNil : front = []
    · subst hNil
      exact ⟨0, 0, .inl (Nat.zero_le 7), [], rfl, [], rfl, rfl⟩
    · have hIndex : (front ++ [colon]).length - 2 = front.length - 1 := by simp
      rw [if_neg (by simpa using hNil), hData, hIndex] at h
      rw [hData]
      rcases parseHex_split hNil (fun hFalse => by cases hFalse) h with ⟨_, n, hLimit, hFront⟩ | ⟨hFalse, _⟩
      · exact ⟨n + 1, 0, .inl hLimit, front, hFront, [], rfl, rfl⟩
      · cases hFalse
  · rw [if_neg hElision] at h
    by_cases hDigit : hexdig last = true
    · rw [if_pos hDigit, ← hLast] at h
      have hHex := @parseHex_whole (front ++ [previous] ++ [last]) errno (by simp) fun hColon => by
        simp only [List.getLast?_concat] at hColon
        rw [Option.some.inj hColon] at hDigit
        exact absurd hDigit (by decide)
      split_ifs at h with hShort hThree
      · cases h
      · exact .inl (hHex h)
      · obtain ⟨_, _, h⟩ := bind_ok.mp h
        obtain ⟨_, _, h⟩ := bind_ok.mp h
        split_ifs at h with hDot
        · exact .inr ⟨Nat.not_lt.mp hShort, h⟩
        · exact .inl (hHex h)
    · rw [if_neg hDigit] at h
      cases h

/-- What is accepted is one of the accepted addresses. -/
theorem parseIpv6Address_split {data : Bytes} {errno : Imperr} (h : parseIpv6Address data = .ok (true, errno)) :
    AcceptedAddress data := by
  rcases parseIpv6Address_parts h with (hGroups | ⟨a, b, hFits, front, hFront, back, hBack, rfl⟩) | ⟨hLength, hDec⟩
  · exact .full hGroups
  · exact .elided hFits hFront hBack
  · exact parseDec_split (by omega) hDec

/-! ### IP literals -/

theorem skipHexdigs_split {s : Bytes} {i next : Nat} (h : skipHexdigs s i = .ok next) :
    ∃ digits tail, s = digits ++ tail ∧ (∀ c ∈ digits, hexdig c = true) ∧ next = i + digits.length := by
  induction s generalizing i with
  | nil => cases h
  | cons c rest ih =>
      unfold skipHexdigs at h
      split_ifs at h with hDigit hMore
      · cases h
        exact ⟨[], c :: rest, rfl, by simp, by simp⟩
      · obtain ⟨digits, tail, rfl, hDigits, rfl⟩ := ih h
        refine ⟨c :: digits, tail, rfl, List.forall_mem_cons.mpr ⟨by simpa using hDigit, hDigits⟩, ?_⟩
        rw [List.length_cons]
        omega
      · cases h
        exact ⟨[], c :: rest, rfl, by simp, by simp⟩

/-- What is read behind `before` is there. -/
theorem readAt_append {before rest : Bytes} {i : Nat} {c : UInt8} (hIndex : before.length = i)
    (h : readAt (before ++ rest) i = .ok c) : ∃ tail, rest = c :: tail := by
  subst hIndex
  rcases rest with _ | ⟨d, tail⟩
  · rw [readAt, List.append_nil, List.getElem?_eq_none (Nat.le_refl _)] at h
    cases h
  · cases (readAt_place before tail d).symm.trans h
    exact ⟨tail, rfl⟩

/-- What is accepted as an IPvFuture is one. -/
theorem parseIpvFuture_split {data : Bytes} {errno : Imperr} (h : parseIpvFuture data = .ok (true, errno)) :
    data ∈ Grammar.ipvFuture := by
  obtain ⟨_, h⟩ := unless_refused.mp h
  obtain ⟨v, hRead, h⟩ := bind_ok.mp h
  obtain ⟨hVersion, h⟩ := unless_refused.mp h
  obtain ⟨rest, rfl⟩ := @readAt_append [] data 0 v rfl hRead
  obtain ⟨d, hRead, h⟩ := bind_ok.mp h
  obtain ⟨hDigit, h⟩ := unless_refused.mp h
  obtain ⟨rest, rfl⟩ := @readAt_append [v] rest 1 d rfl hRead
  obtain ⟨i, hSkip, h⟩ := bind_ok.mp h
  obtain ⟨digits, rest, rfl, hDigits, rfl⟩ := skipHexdigs_split hSkip
  obtain ⟨e, hRead, h⟩ := bind_ok.mp h
  obtain ⟨hDot, h⟩ := unless_refused.mp h
  obtain ⟨rest, rfl⟩ := @readAt_append (v :: d :: digits) rest (2 + digits.length) e
    (by simp only [List.length_cons]; omega) hRead
  obtain ⟨f, hRead, h⟩ := bind_ok.mp h
  obtain ⟨hFirst, h⟩ := unless_refused.mp h
  obtain ⟨hRest, _⟩ := unless_refused.mp h
  obtain ⟨rest, rfl⟩ := @readAt_append (v :: d :: (digits ++ [e])) rest (2 + digits.length + 1) f
    (by simp only [List.length_cons, List.length_append, List.length_nil]; omega) (by simpa using hRead)
  obtain rfl : v = 0x76 := by simpa using hVersion
  obtain rfl : e = dot := by simpa using hDot
  have hDrop : (0x76 :: d :: (digits ++ dot :: f :: rest)).drop (2 + digits.length + 2) = rest := by
    have hSplit : 0x76 :: d :: (digits ++ dot :: f :: rest) = (0x76 :: d :: (digits ++ [dot, f])) ++ rest := by simp
    rw [hSplit, List.drop_append_of_le_length (by simp; omega), List.drop_eq_nil_of_le (by simp; omega), List.nil_append]
  rw [hDrop] at hRest
  have hRest : ∀ c ∈ rest, ipvFutureChar c = true := by simpa using hRest
  have hNumber : d :: digits ∈ atLeastOne (oneOf hexdig) :=
    mem_atLeastOne_oneOf.mpr ⟨by simp, List.forall_mem_cons.mpr ⟨by simpa using hDigit, hDigits⟩⟩
  have hAddress : f :: rest ∈ atLeastOne (oneOf ipvFutureChar) :=
    mem_atLeastOne_oneOf.mpr ⟨by simp, List.forall_mem_cons.mpr ⟨by simpa using hFirst, hRest⟩⟩
  have hText : 0x76 :: d :: (digits ++ dot :: f :: rest) = [0x76] ++ (d :: digits) ++ [dot] ++ (f :: rest) := by simp
  rw [hText]
  exact Language.append_mem_mul (Language.append_mem_mul (Language.append_mem_mul
    (show [0x76] ∈ oneOf fun c : UInt8 => c == 0x76 || c == 0x56 from ⟨0x76, rfl, rfl⟩) hNumber)
    (show [dot] ∈ literal [dot] from rfl)) hAddress

/-- What is accepted between the brackets. -/
theorem parseIpLiteral_split {inner : Bytes} {errno : Imperr}
    (h : parseIpLiteral (openBracket :: inner ++ [closeBracket]) = .ok (true, errno)) :
    (inner.head? = some 0x76 ∧ inner ∈ Grammar.ipvFuture) ∨ (inner.head? ≠ some 0x76 ∧ AcceptedAddress inner) := by
  obtain ⟨_, h⟩ := unless_refused.mp h
  obtain ⟨_, _, h⟩ := bind_ok.mp h
  obtain ⟨_, _, h⟩ := bind_ok.mp h
  obtain ⟨_, h⟩ := unless_refused.mp h
  obtain ⟨d2, hCut, h⟩ := bind_ok.mp h
  have hInner : cut (openBracket :: inner ++ [closeBracket]) 1 ((openBracket :: inner ++ [closeBracket]).length - 1) =
      .ok inner := by
    have hPlace := cut_place [openBracket] inner [closeBracket]
    simpa [Nat.add_comm] using hPlace
  cases hInner.symm.trans hCut
  obtain ⟨c, hRead, h⟩ := bind_ok.mp h
  obtain ⟨tail, rfl⟩ := @readAt_append [] inner 0 c rfl hRead
  split_ifs at h with hFuture
  · obtain rfl : c = 0x76 := by simpa using hFuture
    exact .inl ⟨rfl, parseIpvFuture_split h⟩
  · exact .inr ⟨by simpa using hFuture, parseIpv6Address_split h⟩

end ImpactSockets.Uri
