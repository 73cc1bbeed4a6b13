import ImpactSockets.Rfc.Uri.Grammar

/-! IPv6 addresses by the number of their groups, an IPv4 address at the end
counting for two. -/
namespace ImpactSockets.Uri

open Abnf AbnfOps Ascii
open scoped Computability

namespace Grammar

/-- Groups with colons between them. -/
def groups : Nat → Language UInt8
  | 0 => 1
  | n + 1 => h16Colon ^ n * h16

/-- The text of the last groups of an address, which may end with an IPv4 address. -/
def lastGroups : Nat → Language UInt8
  | 0 => 1
  | 1 => h16
  | n + 2 => h16Colon ^ n * ls32

/-- `[ *n( h16 ":" ) h16 ]`, for one less than the number that is given. -/
def groupsUpTo (n : Nat) : Language UInt8 := {w | ∃ a, a ≤ n ∧ w ∈ groups a}

theorem mem_groupsUpTo {n : Nat} {w : Bytes} : w ∈ groupsUpTo n ↔ ∃ a, a ≤ n ∧ w ∈ groups a := Iff.rfl

theorem groupsUpTo_zero : groupsUpTo 0 = 1 := by
  ext w
  rw [mem_groupsUpTo]
  simp [groups]

theorem groupsUpTo_succ (n : Nat) : groupsUpTo (n + 1) = optional (upTo n h16Colon * h16) := by
  ext w
  rw [mem_groupsUpTo, mem_optional, Language.mem_mul]
  constructor
  · rintro ⟨a, ha, hw⟩
    cases a with
    | zero => exact .inl hw
    | succ a =>
        obtain ⟨front, hFront, last, hLast, rfl⟩ := Language.mem_mul.mp hw
        exact .inr ⟨front, mem_upTo.mpr ⟨a, by omega, hFront⟩, last, hLast, rfl⟩
  · rintro (rfl | ⟨front, hFront, last, hLast, rfl⟩)
    · exact ⟨0, by omega, rfl⟩
    · obtain ⟨a, ha, hFront⟩ := mem_upTo.mp hFront
      exact ⟨a + 1, by omega, Language.append_mem_mul hFront hLast⟩

/-- An address with an elision, with at most `a` groups in front of it and `b` behind it. -/
def elided (a b : Nat) : Language UInt8 := groupsUpTo a * literal [colon, colon] * lastGroups b

theorem optional_h16 : optional h16 = groupsUpTo 1 := by
  have hZero : upTo 0 h16Colon = 1 := by
    ext w
    simp [mem_upTo]
  rw [groupsUpTo_succ, hZero, one_mul]

theorem elision_eq (n : Nat) : elision n = groupsUpTo (n + 1) * literal [colon, colon] := by
  rw [elision, groupsUpTo_succ]

/-- The alternatives of the grammar, in its order. -/
theorem ipv6Address_eq :
    ipv6Address = lastGroups 8 + elided 0 7 + elided 1 6 + elided 2 5 + elided 3 4 + elided 4 3 + elided 5 2 +
      elided 6 1 + elided 7 0 := by
  simp only [ipv6Address, elided, lastGroups, elision_eq, optional_h16, groupsUpTo_zero, one_mul, mul_one,
    pow_zero, pow_one]

/-- An address writes out eight groups, or elides at least one. -/
theorem mem_ipv6Address {w : Bytes} :
    w ∈ ipv6Address ↔ w ∈ lastGroups 8 ∨
      ∃ a b, a + b ≤ 7 ∧ ∃ front ∈ groups a, ∃ back ∈ lastGroups b, w = front ++ colon :: colon :: back := by
  have hElided (n b : Nat) : w ∈ elided n b ↔
      ∃ a, a ≤ n ∧ ∃ front ∈ groups a, ∃ back ∈ lastGroups b, w = front ++ colon :: colon :: back := by
    rw [elided, mul_assoc, Language.mem_mul]
    constructor
    · rintro ⟨front, ⟨a, ha, hFront⟩, behind, hBehind, rfl⟩
      obtain ⟨back, hBack, rfl⟩ := mem_literal_mul.mp hBehind
      exact ⟨a, ha, front, hFront, back, hBack, rfl⟩
    · rintro ⟨a, ha, front, hFront, back, hBack, rfl⟩
      exact ⟨front, ⟨a, ha, hFront⟩, _, mem_literal_mul.mpr ⟨back, hBack, rfl⟩, rfl⟩
  rw [ipv6Address_eq]
  simp only [Language.mem_add, hElided, or_assoc]
  refine or_congr_right ⟨?_, ?_⟩
  · rintro (⟨a, ha, h⟩ | ⟨a, ha, h⟩ | ⟨a, ha, h⟩ | ⟨a, ha, h⟩ | ⟨a, ha, h⟩ | ⟨a, ha, h⟩ | ⟨a, ha, h⟩ | ⟨a, ha, h⟩)
    all_goals exact ⟨a, _, by omega, h⟩
  · rintro ⟨a, b, hSum, h⟩
    have hBack : b = 7 ∨ b = 6 ∨ b = 5 ∨ b = 4 ∨ b = 3 ∨ b = 2 ∨ b = 1 ∨ b = 0 := by omega
    refine hBack.imp ?_ fun hBack => hBack.imp ?_ fun hBack => hBack.imp ?_ fun hBack => hBack.imp ?_
      fun hBack => hBack.imp ?_ fun hBack => hBack.imp ?_ fun hBack => hBack.imp ?_ ?_
    all_goals
      rintro rfl
      exact ⟨a, by omega, h⟩

/-- Groups are last groups without an IPv4 address. -/
theorem lastGroups_of_groups (n : Nat) {w : Bytes} (hw : w ∈ groups n) : w ∈ lastGroups n := by
  rcases n with _ | _ | n
  · exact hw
  · rw [groups, pow_zero, one_mul] at hw
    exact hw
  · rw [groups, pow_succ, mul_assoc] at hw
    obtain ⟨front, hFront, last, hLast, rfl⟩ := Language.mem_mul.mp hw
    exact Language.append_mem_mul hFront ((Language.mem_add _ _ _).mpr (.inl hLast))

/-- Last groups are groups, or end with an IPv4 address. -/
theorem mem_lastGroups {n : Nat} {w : Bytes} (h : w ∈ lastGroups n) :
    w ∈ groups n ∨ ∃ b, n = b + 2 ∧ ∃ front ∈ h16Colon ^ b, ∃ quad ∈ ipv4Address, w = front ++ quad := by
  match n with
  | 0 => exact .inl h
  | 1 =>
      refine .inl ?_
      rw [groups, pow_zero, one_mul]
      exact h
  | n + 2 =>
      obtain ⟨front, hFront, last, hLast, rfl⟩ := Language.mem_mul.mp h
      rcases (Language.mem_add _ _ _).mp hLast with hLast | hLast
      · refine .inl ?_
        rw [groups, pow_succ, mul_assoc]
        exact Language.append_mem_mul hFront hLast
      · exact .inr ⟨n, rfl, front, hFront, last, hLast, rfl⟩

end Grammar

end ImpactSockets.Uri
