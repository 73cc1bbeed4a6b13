import ImpactSockets.Library.Total
import ImpactSockets.Rfc.Uri.IpLiteralParser

/-! The parsers of IP literals read nothing outside the literal, and set an error
when they refuse it. -/
namespace ImpactSockets.Uri

open AbnfOps Ascii Total

theorem ends_readAt {data : Bytes} {i : Nat} (h : i < data.length) : Ends (· ∈ data) (readAt data i) := by
  rw [readAt, List.getElem?_eq_getElem h]
  exact ends_ok (List.getElem_mem h)

theorem ends_cut {data : Bytes} {first last : Nat} (hFirst : first ≤ last) (hLast : last ≤ data.length) :
    Ends (fun text => text.length = last - first) (cut data first last) := by
  rw [cut, if_pos ⟨hFirst, hLast⟩]
  apply ends_ok
  rw [List.length_take, List.length_drop]
  omega

/-- The parser returns true, or sets an error. -/
def Judged (verdict : Verdict) : Prop := verdict.1 = false → verdict.2 ≠ .success

theorem judged_refused {property : Prop} (_ : property) :
    Ends Judged (.ok (false, .uriInvlIpLit) : Exec Verdict) := by
  apply ends_ok
  intro _ h
  cases h

theorem judged_accepted {property : Prop} (errno : Imperr) (_ : property) :
    Ends Judged (.ok (true, errno) : Exec Verdict) := by
  apply ends_ok
  intro h
  cases h

/-! ### IPvFuture -/

/-- The loop ends in front of the last character. -/
theorem skipHexdigs_ends {s : Bytes} (hLength : 2 ≤ s.length) (i : Nat) :
    Ends (fun next => next + 2 ≤ i + s.length) (skipHexdigs s i) := by
  induction s generalizing i with
  | nil => simp at hLength
  | cons c rest ih =>
      rw [List.length_cons] at hLength ⊢
      rw [skipHexdigs]
      apply ends_ite
      · intro _
        apply ends_ok
        omega
      · intro _
        apply ends_ite
        · intro hMore
          apply (ih hMore (i + 1)).mono
          omega
        · intro _
          apply ends_ok
          omega

/-- Every text is judged as an IPvFuture, and a refusal sets an error. -/
theorem parseIpvFuture_ends (data : Bytes) : Ends Judged (parseIpvFuture data) := by
  unfold parseIpvFuture
  apply ends_ite judged_refused
  intro hShort
  apply (ends_readAt (by omega)).bind
  intro v _
  apply ends_ite judged_refused
  intro _
  apply (ends_readAt (by omega)).bind
  intro d _
  apply ends_ite judged_refused
  intro _
  have hLength : (data.drop 2).length = data.length - 2 := List.length_drop
  apply (skipHexdigs_ends (by omega) 2).bind
  intro i hEnd
  apply (ends_readAt (by omega)).bind
  intro e _
  apply ends_ite judged_refused
  intro _
  apply (ends_readAt (by omega)).bind
  intro f _
  apply ends_ite judged_refused
  intro _
  exact ends_ite judged_refused (judged_accepted .success)

/-! ### IPv6 addresses -/

/-- The loop ends where it began or to the left of it. -/
theorem hexLoop_ends {data : Bytes} {i : Nat} (h : i < data.length) (st : HexState) :
    Ends (fun found => ∀ end_ ∈ found, end_.1 ≤ i) (hexLoop data i st) := by
  induction i generalizing st with
  | zero =>
      rw [hexLoop]
      apply (ends_readAt h).bind
      intro c _
      cases hexStep c true st with
      | next next => exact ends_ok (by simp)
      | leave => exact ends_ok (by simp)
      | fail => exact ends_ok (by simp)
  | succ i ih =>
      rw [hexLoop]
      apply (ends_readAt h).bind
      intro c _
      cases hexStep c false st with
      | next next =>
          apply (ih (by omega) next).mono
          intro found hFound end_ hEnd
          exact Nat.le_succ_of_le (hFound end_ hEnd)
      | leave => exact ends_ok (by simp)
      | fail => exact ends_ok (by simp)

/-- The loop over the groups ends with a verdict, from any position in the text. -/
theorem parseHex_ends {data : Bytes} {currentIdx : Nat} (h : currentIdx < data.length)
    (havePlaceholder haveIpv4 : Bool) : Ends Judged (parseHex data currentIdx havePlaceholder haveIpv4) := by
  unfold parseHex
  apply (hexLoop_ends h _).bind
  intro found hFound
  rcases found with _ | ⟨i, st⟩
  · exact judged_refused trivial
  · have hLe : i ≤ currentIdx := hFound _ rfl
    apply ends_ite judged_refused
    intro _
    apply (ends_readAt (by omega)).bind
    intro c _
    apply ends_ite judged_refused
    intro _
    apply ends_ite
    · intro _
      apply ends_ite judged_refused
      intro _
      exact ends_ite judged_refused (judged_accepted .success)
    · intro _
      apply ends_ite judged_refused
      intro _
      exact ends_ite judged_refused (judged_accepted .success)

/-- The loop ends where it began or to the left of it, but not at the first
character. -/
theorem decLoop_ends {data : Bytes} {i : Nat} (hPositive : 0 < i) (h : i < data.length) (st : DecState) :
    Ends (fun found => ∀ end_ ∈ found, 0 < end_.1 ∧ end_.1 ≤ i) (decLoop data i st) := by
  induction i generalizing st with
  | zero => omega
  | succ i ih =>
      rw [decLoop]
      apply ends_ite
      · intro hMore
        apply (ends_readAt h).bind
        intro c _
        cases decStep c st with
        | next next =>
            apply (ih (by omega) (by omega) next).mono
            intro found hFound end_ hEnd
            exact ⟨(hFound end_ hEnd).1, Nat.le_succ_of_le (hFound end_ hEnd).2⟩
        | leave => exact ends_ok (by simp)
        | fail => exact ends_ok (by simp)
      · intro _
        exact ends_ok (by simp)

/-- The loop over the octets ends with a verdict, from any position but the first. -/
theorem parseDec_ends {data : Bytes} {currentIdx : Nat} (hPositive : 0 < currentIdx)
    (h : currentIdx < data.length) : Ends Judged (parseDec data currentIdx) := by
  unfold parseDec
  apply (decLoop_ends hPositive h ⟨.five, 0, 1⟩).bind
  intro found hFound
  rcases found with _ | ⟨i, st⟩
  · exact judged_refused trivial
  · obtain ⟨hFirst, hLe⟩ : 0 < i ∧ i ≤ currentIdx := hFound _ rfl
    apply ends_ite judged_refused
    intro _
    apply (ends_readAt (by omega)).bind
    intro c _
    apply ends_ite
    · intro _
      apply (ends_readAt (by omega)).bind
      intro d _
      apply ends_ite
      · intro _
        apply ends_ite (judged_accepted .uriInvlIpLit)
        exact fun _ => parseHex_ends (by omega) true true
      · exact fun _ => parseHex_ends (by omega) false true
    · exact judged_refused

/-- Every text is judged as an IPv6 address. -/
theorem parseIpv6Address_ends (data : Bytes) : Ends Judged (parseIpv6Address data) := by
  unfold parseIpv6Address
  apply ends_ite judged_refused
  intro hShort
  dsimp only
  apply (ends_readAt (by omega)).bind
  intro last _
  apply (ends_readAt (by omega)).bind
  intro previous _
  apply ends_ite
  · intro _
    apply ends_ite (judged_accepted .uriInvlIpLit)
    exact fun _ => parseHex_ends (by omega) true false
  · intro _
    apply ends_ite
    · intro _
      apply ends_ite
      · intro _
        apply ends_ite judged_refused
        exact fun _ => parseHex_ends (by omega) false false
      · intro _
        apply (ends_readAt (by omega)).bind
        intro second _
        apply (ends_readAt (by omega)).bind
        intro third _
        apply ends_ite
        · exact fun _ => parseDec_ends (by omega) (by omega)
        · exact fun _ => parseHex_ends (by omega) false false
    · exact judged_refused

/-- Every text gets a verdict. -/
theorem parseIpLiteral_ends (data : Bytes) : Ends Judged (parseIpLiteral data) := by
  unfold parseIpLiteral
  apply ends_ite judged_refused
  intro hShort
  apply (ends_readAt (by omega)).bind
  intro first _
  apply (ends_readAt (by omega)).bind
  intro last _
  apply ends_ite judged_refused
  intro _
  apply (ends_cut (by omega) (by omega)).bind
  intro inner hInner
  apply (ends_readAt (by omega)).bind
  intro c _
  apply ends_ite
  · exact fun _ => parseIpvFuture_ends inner
  · exact fun _ => parseIpv6Address_ends inner

end ImpactSockets.Uri
