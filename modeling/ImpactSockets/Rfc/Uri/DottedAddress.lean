import ImpactSockets.Rfc.Uri.DecOctets

/-! The IPv6 addresses with an IPv4 part, and which of them the parser accepts. -/
namespace ImpactSockets.Uri

open Abnf AbnfOps Ascii
open scoped Computability

/-! ### The loop over octets -/

/-- Octets behind dots. -/
def takenTail (n : Nat) : Language UInt8 := (literal [dot] * takenOctet) ^ n

/-- Octets behind dots, and in front of them one that may go on. -/
def QuadTaken (text : Bytes) (st : DecState) : Prop :=
  ∃ octet tail n, text = octet ++ tail ∧ OctetTaken octet ∧ tail ∈ takenTail n ∧ st = octetState octet (n + 1)

theorem takenTail_succ {octet tail : Bytes} {n : Nat} (hOctet : octet ∈ takenOctet) (hTail : tail ∈ takenTail n) :
    dot :: (octet ++ tail) ∈ takenTail (n + 1) :=
  mem_pow_succ.mpr ⟨dot :: octet, mem_literal_mul.mpr ⟨octet, hOctet, rfl⟩, tail, hTail, rfl⟩

theorem QuadTaken.step {text : Bytes} {st next : DecState} (h : QuadTaken text st) {c : UInt8}
    (hStep : decStep c st = .next next) : QuadTaken (c :: text) next := by
  obtain ⟨octet, tail, n, rfl, hOctet, hTail, rfl⟩ := h
  rcases @decStep_cases c octet hOctet (n + 1) with ⟨hNext, hCase⟩ | ⟨hNe, rfl, hCase⟩ | ⟨_, _, hCase⟩ | hCase
  · obtain rfl := Iteration.next.inj (hCase.symm.trans hStep)
    exact ⟨c :: octet, tail, n, rfl, hNext, hTail, rfl⟩
  · obtain rfl := Iteration.next.inj (hCase.symm.trans hStep)
    exact ⟨[], dot :: (octet ++ tail), n + 1, rfl, trivial, takenTail_succ (mem_takenOctet.mpr ⟨hOctet, hNe⟩) hTail,
      rfl⟩
  · cases hCase.symm.trans hStep
  · cases hCase.symm.trans hStep

/-- The loop leaves behind an octet with digits. -/
theorem QuadTaken.leave {text : Bytes} {st : DecState} (h : QuadTaken text st) {c : UInt8}
    (hStep : decStep c st = .leave) : st.dcnt ≠ 0 := by
  obtain ⟨octet, tail, n, rfl, hOctet, hTail, rfl⟩ := h
  rcases @decStep_cases c octet hOctet (n + 1) with ⟨_, hCase⟩ | ⟨_, _, hCase⟩ | ⟨hNe, _, _⟩ | hCase
  · cases hCase.symm.trans hStep
  · cases hCase.symm.trans hStep
  · exact octetState_dcnt hNe _
  · cases hCase.symm.trans hStep

/-- An iteration that is not the last one. -/
theorem decLoop_next {front behind : Bytes} {c : UInt8} {st next : DecState} (hLength : 2 ≤ front.length)
    (hStep : decStep c st = .next next) :
    decLoop (front ++ c :: behind) front.length st = decLoop (front ++ c :: behind) (front.length - 1) next := by
  obtain ⟨init, d, rfl⟩ := (List.eq_nil_or_concat' front).resolve_left fun hNil => by simp [hNil] at hLength
  have hRead : readAt (init ++ [d] ++ c :: behind) (init.length + 1) = .ok c := by
    have hPlace := readAt_place (init ++ [d]) behind c
    simpa [place] using hPlace
  rw [List.length_append, List.length_singleton] at hLength ⊢
  rw [Nat.add_sub_cancel, decLoop, if_pos (by omega), hRead]
  simp only [bind, Except.bind, hStep]

theorem decLoop_octet {front digits octet behind : Bytes} {n : Nat} (hLength : 2 ≤ front.length)
    (hOctet : OctetTaken (digits ++ octet)) :
    decLoop (front ++ (digits ++ behind)) ((front ++ digits).length - 1) (octetState octet n) =
      decLoop (front ++ (digits ++ behind)) (front.length - 1) (octetState (digits ++ octet) n) := by
  induction digits using List.reverseRecOn generalizing behind octet with
  | nil => simp
  | append_singleton digits c ih =>
      have hText : digits ++ [c] ++ octet = digits ++ c :: octet := by simp
      have hData : front ++ (digits ++ [c] ++ behind) = front ++ digits ++ c :: behind := by simp
      have hIndex : (front ++ (digits ++ [c])).length - 1 = (front ++ digits).length := by simp
      have hFront : 2 ≤ (front ++ digits).length := by
        rw [List.length_append]
        omega
      rw [hText] at hOctet ⊢
      rw [hData, hIndex, decLoop_next hFront (decStep_taken (octetTaken_suffix hOctet) n), List.append_assoc]
      exact ih hOctet

/-- Octets behind dots, up to the one that ends in front of them. -/
theorem decLoop_tail {front tail behind : Bytes} {n k : Nat} (hLength : 2 ≤ front.length) (hTail : tail ∈ takenTail n) :
    decLoop (front ++ (tail ++ behind)) ((front ++ tail).length - 1) (octetState [] k) =
      decLoop (front ++ (tail ++ behind)) (front.length - 1) (octetState [] (k + n)) := by
  induction n generalizing tail behind k with
  | zero =>
      obtain rfl := mem_pow_zero.mp hTail
      simp
  | succ n ih =>
      rw [takenTail, pow_succ] at hTail
      obtain ⟨init, hInit, last, hLast, rfl⟩ := Language.mem_mul.mp hTail
      obtain ⟨octet, hOctet, rfl⟩ := mem_literal_mul.mp hLast
      obtain ⟨hTaken, hNe⟩ := mem_takenOctet.mp hOctet
      have hData : front ++ (init ++ ([dot] ++ octet) ++ behind) = front ++ init ++ [dot] ++ (octet ++ behind) := by
        simp
      have hIndex : (front ++ (init ++ ([dot] ++ octet))).length = (front ++ init ++ [dot] ++ octet).length := by simp
      have hDotIndex : (front ++ init ++ [dot]).length - 1 = (front ++ init).length := by simp
      have hFront : 2 ≤ (front ++ init).length := by
        rw [List.length_append]
        omega
      have hDot : ¬OctetTaken (dot :: octet) := fun h => absurd (octetTaken_digits h dot (by simp)) (by decide)
      have hStep : decStep dot (octetState octet k) = .next (octetState [] (k + 1)) := by
        rw [decStep_untaken hTaken hDot, if_neg hNe]
        rfl
      have hDigits := @decLoop_octet (front ++ init ++ [dot]) octet [] behind k (by simp; omega) (by simpa using hTaken)
      rw [List.append_nil] at hDigits
      rw [hData, hIndex, hDigits, hDotIndex, List.append_assoc _ [dot], List.singleton_append,
        decLoop_next hFront hStep, List.append_assoc, ih hInit]
      congr 2
      omega

/-- Four octets behind a colon, of which the first one may be empty at the
place where the loop ends by itself. -/
theorem decLoop_quad {lead octet tail : Bytes} (hLead : lead ≠ []) (hOctet : OctetTaken octet)
    (hTail : tail ∈ takenTail 3) (hEnd : octet ≠ [] ∨ lead.length = 1) :
    decLoop (lead ++ colon :: (octet ++ tail)) ((lead ++ colon :: (octet ++ tail)).length - 1) ⟨.five, 0, 1⟩ =
      .ok (some (lead.length, octetState octet 4)) := by
  obtain ⟨c, front, rfl⟩ := List.exists_cons_of_ne_nil hLead
  have hData : c :: front ++ colon :: (octet ++ tail) = c :: front ++ [colon] ++ octet ++ (tail ++ []) := by simp
  have hOctetData : c :: front ++ [colon] ++ octet ++ (tail ++ []) = c :: front ++ [colon] ++ (octet ++ tail) := by simp
  have hLength : (c :: front ++ colon :: (octet ++ tail)).length = (c :: front ++ [colon] ++ octet ++ tail).length := by
    simp
  have hIndex : (c :: front ++ [colon]).length - 1 = (c :: front).length := by simp
  have hTailRun := @decLoop_tail (c :: front ++ [colon] ++ octet) tail [] 3 1 (by simp; omega) hTail
  have hOctetRun := @decLoop_octet (c :: front ++ [colon]) octet [] tail (1 + 3) (by simp) (by simpa using hOctet)
  rw [List.append_nil, hIndex] at hOctetRun
  rw [hLength, hData]
  refine hTailRun.trans ?_
  rw [hOctetData, hOctetRun, List.append_assoc, List.singleton_append, List.length_cons, decLoop]
  split_ifs with hMore
  · have hNe : octet ≠ [] := hEnd.resolve_right fun hOne => by
      rw [List.length_cons] at hOne
      omega
    have hColon : ¬OctetTaken (colon :: octet) := fun h => absurd (octetTaken_digits h colon (by simp)) (by decide)
    have hStep : decStep colon (octetState octet (1 + 3)) = .leave := by
      rw [decStep_untaken hOctet hColon, if_neg hNe]
      rfl
    have hRead : readAt (c :: front ++ colon :: (octet ++ tail)) (front.length + 1) = .ok colon :=
      readAt_place (c :: front) (octet ++ tail) colon
    rw [hRead]
    simp only [bind, Except.bind, hStep]
  · rfl

/-! ### The text in front of the octets -/

/-- The octets with dots between them that are taken. -/
def takenQuad : Language UInt8 := takenOctet * takenTail 3

/-- A text in front of the last colon is accepted. -/
theorem parseDec_of_lead {front behind : Bytes} {currentIdx : Nat} {last : DecState} (h : Lead front)
    (hLoop : decLoop (front ++ colon :: behind) currentIdx ⟨.five, 0, 1⟩ = .ok (some (front.length, last)))
    (hCount : last.dgrp = 4) : ∃ errno, parseDec (front ++ colon :: behind) currentIdx = .ok (true, errno) := by
  have hRead : readAt (front ++ colon :: behind) front.length = .ok colon := readAt_place front behind colon
  unfold parseDec
  simp only [hLoop, hRead, hCount, bind, Except.bind, ne_eq, not_true_eq_false, if_false, beq_self_eq_true, if_true]
  obtain ⟨a, b, hFits, text, hText, back, hBack, hEq⟩ := h
  cases b with
  | zero =>
      obtain rfl := mem_pow_zero.mp hBack
      obtain rfl : front = text ++ [colon] := List.append_cancel_right (hEq.trans (by simp))
      have hSplit : text ++ [colon] ++ colon :: behind = text ++ colon :: colon :: behind := by simp
      have hPrevious : readAt (text ++ colon :: colon :: behind) text.length = .ok colon :=
        readAt_place text (colon :: behind) colon
      have hIndex : (text ++ [colon]).length - 1 = text.length := by simp
      have hNext : (text ++ [colon]).length - 2 = text.length - 1 := by simp
      rw [hSplit, hIndex, hNext, hPrevious]
      cases a with
      | zero =>
          obtain rfl : text = [] := hText
          exact ⟨.uriInvlIpLit, rfl⟩
      | succ a =>
          have hLimit : (a : Int) + 1 ≤ groupLimit true := by
            unfold Fits at hFits
            simp only [groupLimit, if_true]
            omega
          have hNe : text.length ≠ 0 := List.length_eq_zero_iff.not.mpr (groups_ne_nil hText)
          refine ⟨.success, ?_⟩
          simpa [hNe] using @parseHex_front text (colon :: colon :: behind) a true hText hLimit
  | succ b =>
      rw [pow_succ, Grammar.h16Colon, ← mul_assoc] at hBack
      obtain ⟨groups, hGroups, _, rfl, rfl⟩ := Language.mem_mul.mp hBack
      obtain rfl : front = text ++ colon :: colon :: groups := List.append_cancel_right (hEq.trans (by simp))
      obtain ⟨init, c, rfl, hDigit⟩ := groups_last hGroups
      have hIndex : (text ++ colon :: colon :: (init ++ [c])).length - 1 = (text ++ colon :: colon :: init).length := by
        simp
      have hPrevious : readAt (text ++ colon :: colon :: (init ++ [c]) ++ colon :: behind)
          (text ++ colon :: colon :: init).length = .ok c := by
        have hPlace := readAt_place (text ++ colon :: colon :: init) (colon :: behind) c
        simpa using hPlace
      have hNe : (c == colon) = false := beq_eq_false_iff_ne.mpr (colon_not_hexdig hDigit)
      refine ⟨.success, ?_⟩
      rw [hIndex, hPrevious]
      simp only [hNe, Bool.false_eq_true, if_false]
      rw [← hIndex]
      exact parseHex_elided hFits hText hGroups

/-- The texts with an IPv4 part that are accepted. The loop does not look for
the first octet at index 1. -/
inductive DottedTaken : Bytes → Prop where
  | quad {a b : Nat} {front back quad : Bytes} (hFits : Fits 5 a b) (hFront : front ∈ Grammar.groups a)
      (hBack : back ∈ Grammar.h16Colon ^ b) (hQuad : quad ∈ takenQuad) :
      DottedTaken (front ++ colon :: colon :: (back ++ quad))
  | headless {quad : Bytes} (hQuad : quad ∈ takenTail 3) (hLength : 7 ≤ quad.length) :
      DottedTaken (colon :: colon :: quad)

/-- A lead of one character. -/
theorem Lead.short {front : Bytes} (h : Lead front) (hLength : front.length = 1) : front = [colon] := by
  obtain ⟨a, b, _, text, _, back, _, hEq⟩ := h
  have hSum := congrArg List.length hEq
  simp only [List.length_append, List.length_cons, List.length_nil] at hSum
  obtain rfl : text = [] := List.length_eq_zero_iff.mp (by omega)
  obtain rfl : back = [] := List.length_eq_zero_iff.mp (by omega)
  exact List.append_cancel_right hEq

theorem dottedTaken_of_parseDec {data : Bytes} (hLength : 9 ≤ data.length) {errno : Imperr}
    (h : parseDec data (data.length - 1) = .ok (true, errno)) : DottedTaken data := by
  have hStart : QuadTaken [] ⟨.five, 0, 1⟩ := ⟨[], [], 0, rfl, trivial, mem_pow_zero.mpr rfl, rfl⟩
  obtain ⟨front, quad, last, rfl, hLead, hQuad, hCount, hEnd⟩ :=
    parseDec_parts (fun hRead hStep => hRead.step hStep) hStart (by omega) h
  have hLeave := @QuadTaken.leave _ _ hQuad colon
  obtain ⟨octet, tail, n, rfl, hOctet, hTail, rfl⟩ := hQuad
  obtain rfl : n = 3 := by
    rw [octetState_dgrp] at hCount
    omega
  by_cases hNil : octet = []
  · subst hNil
    obtain rfl := hLead.short (hEnd.resolve_left fun hStep => hLeave hStep rfl)
    rw [List.singleton_append, List.nil_append] at hLength ⊢
    refine .headless hTail ?_
    rw [List.length_cons, List.length_cons] at hLength
    omega
  · obtain ⟨a, b, hFits, text, hText, back, hBack, hEq⟩ := hLead.split (octet ++ tail)
    rw [hEq]
    exact .quad hFits hText hBack (Language.append_mem_mul (mem_takenOctet.mpr ⟨hOctet, hNil⟩) hTail)

/-- Groups up to the colon in front of an IPv4 part. -/
theorem lead_of_groups {text back : Bytes} {a b : Nat} (hFits : Fits 5 a b) (hText : text ∈ Grammar.groups a)
    (hBack : back ∈ Grammar.h16Colon ^ b) :
    ∃ front, Lead front ∧ ∀ quad, text ++ colon :: colon :: (back ++ quad) = front ++ colon :: quad := by
  rcases h16Colon_pow_last hBack with rfl | ⟨init, rfl⟩
  · exact ⟨text ++ [colon], ⟨a, b, hFits, text, hText, [], hBack, by simp⟩, fun quad => by simp⟩
  · exact ⟨text ++ colon :: colon :: init, ⟨a, b, hFits, text, hText, init ++ [colon], hBack, by simp⟩,
      fun quad => by simp⟩

theorem Lead.ne_nil {front : Bytes} (h : Lead front) : front ≠ [] := by
  rintro rfl
  obtain ⟨a, b, _, text, _, back, _, hEq⟩ := h
  have hSum := congrArg List.length hEq
  simp only [List.length_append, List.length_cons, List.length_nil] at hSum
  omega

theorem parseDec_of_dottedTaken {data : Bytes} (h : DottedTaken data) :
    ∃ errno, parseDec data (data.length - 1) = .ok (true, errno) := by
  cases h with
  | @quad a b front back quad hFits hFront hBack hQuad =>
      obtain ⟨octet, hOctet, tail, hTail, rfl⟩ := Language.mem_mul.mp hQuad
      obtain ⟨hTaken, hNe⟩ := mem_takenOctet.mp hOctet
      obtain ⟨lead, hLead, hEq⟩ := lead_of_groups hFits hFront hBack
      rw [hEq]
      exact parseDec_of_lead hLead (decLoop_quad hLead.ne_nil hTaken hTail (.inl hNe)) (octetState_dgrp _ _)
  | @headless quad hQuad _ =>
      have hLead : Lead [colon] := ⟨0, 0, .inl (Nat.zero_le 5), [], rfl, [], mem_pow_zero.mpr rfl, rfl⟩
      exact parseDec_of_lead hLead (@decLoop_quad [colon] [] quad (by simp) trivial hQuad (.inr rfl))
        (octetState_dgrp [] 4)

end ImpactSockets.Uri
