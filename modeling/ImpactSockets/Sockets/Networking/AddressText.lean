import Mathlib.Data.FinEnum
import Mathlib.Data.List.Basic
import ImpactSockets.Utils.Ascii

/-! What the text of an address stands for: four decimal numbers with dots between them, or
hexadecimal groups with colons between them, at most one run of zero groups left out, and
the last two groups in the dotted form if one likes. -/
namespace ImpactSockets.Networking

open AbnfOps Ascii

def digitValue (c : UInt8) : Nat :=
  if digit c then c.toNat - 0x30 else if c < 0x60 then c.toNat - 0x37 else c.toNat - 0x57

/-- The number that the digits of a text write. -/
def number (base : Nat) (text : Bytes) : Nat := text.foldl (fun n c => base * n + digitValue c) 0

/-- A decimal number of one byte without superfluous zeros. -/
def Octet (text : Bytes) : Prop :=
  (1 ≤ text.length ∧ text.length ≤ 3) ∧ (∀ c ∈ text, digit c) ∧ (text.head? = some 0x30 → text.length = 1) ∧
    number 10 text < 256

/-- A hexadecimal number of two bytes. -/
def Group (text : Bytes) : Prop := (1 ≤ text.length ∧ text.length ≤ 4) ∧ ∀ c ∈ text, hexdig c

/-- Four decimal numbers. -/
def Dotted (text : Bytes) : Prop := (text.splitOn dot).length = 4 ∧ ∀ part ∈ text.splitOn dot, Octet part

instance : DecidablePred Octet := fun _ => inferInstanceAs (Decidable (_ ∧ _ ∧ _ ∧ _))
instance : DecidablePred Group := fun _ => inferInstanceAs (Decidable (_ ∧ _))
instance : DecidablePred Dotted := fun _ => inferInstanceAs (Decidable (_ ∧ _))

def dottedBytes (text : Bytes) : Bytes := (text.splitOn dot).map fun part => UInt8.ofNat (number 10 part)

/-- The bytes of a group, the high one first, or of a dotted tail. -/
def pieceBytes (text : Bytes) : Bytes :=
  if Group text then [UInt8.ofNat (number 16 text / 256), UInt8.ofNat (number 16 text % 256)] else dottedBytes text

/-- Groups with colons between them, of which the last may be dotted if `tail` says so. -/
def Groups (tail : Bool) (text : Bytes) : Prop :=
  text = [] ∨ (∀ part ∈ (text.splitOn colon).dropLast, Group part) ∧
    ∀ part ∈ (text.splitOn colon).getLast?, Group part ∨ tail = true ∧ Dotted part

instance (tail : Bool) : DecidablePred (Groups tail) := fun _ => inferInstanceAs (Decidable (_ ∨ _ ∧ _))

def groupsBytes (text : Bytes) : Bytes := if text = [] then [] else (text.splitOn colon).flatMap pieceBytes

/-- The text before and behind the first two colons that are next to each other. -/
def cutElision : Bytes → Option (Bytes × Bytes)
  | [] => none
  | c :: text =>
      if c = colon ∧ text.head? = some colon then some ([], text.tail)
      else (cutElision text).map fun sides => (c :: sides.1, sides.2)

def parseInet (text : Bytes) : Option Bytes := if Dotted text then some (dottedBytes text) else none

def parseInet6 (text : Bytes) : Option Bytes :=
  match cutElision text with
  | none => if Groups true text ∧ (groupsBytes text).length = 16 then some (groupsBytes text) else none
  | some (left, right) =>
      let known := (groupsBytes left).length + (groupsBytes right).length
      if Groups false left ∧ Groups true right ∧ known ≤ 14 then
        some (groupsBytes left ++ List.replicate (16 - known) 0 ++ groupsBytes right)
      else none

set_option maxRecDepth 4000 in
example : parseInet6 [0x3A, 0x3A, 0x31] = some [0, 0, 0, 0, 0, 0, 0, 0, 0, 0, 0, 0, 0, 0, 0, 1] := by decide

/-! ### No NUL -/

/-- A character of a text is a separator or in one of the parts. -/
theorem mem_part {d c : UInt8} {text : Bytes} (h : c ∈ text) (hNe : c ≠ d) : ∃ part ∈ text.splitOn d, c ∈ part := by
  have hJoin : ∀ parts : List Bytes, c ∈ [d].intercalate parts → ∃ part ∈ parts, c ∈ part := by
    intro parts hMem
    induction parts with
    | nil => simp at hMem
    | cons part parts ih =>
        rcases eq_or_ne parts [] with rfl | hParts
        · exact ⟨part, by simp, by simpa using hMem⟩
        · rw [List.intercalate_cons_of_ne_nil hParts] at hMem
          rcases List.mem_append.mp hMem with hMem | hMem
          · rcases List.mem_append.mp hMem with hMem | hMem
            · exact ⟨part, by simp, hMem⟩
            · exact absurd (by simpa using hMem) hNe
          · obtain ⟨other, hOther, hMem⟩ := ih hMem
            exact ⟨other, by simp [hOther], hMem⟩
  refine hJoin _ ?_
  rwa [List.intercalate_splitOn]

/-- Dotted octets have no NUL. -/
theorem Dotted.nul_not_mem {text : Bytes} (h : Dotted text) : 0 ∉ text := by
  intro hMem
  obtain ⟨part, hPart, hNul⟩ := mem_part hMem (show 0 ≠ dot by decide)
  exact absurd ((h.2 part hPart).2.1 0 hNul) (by decide)

theorem Group.nul_not_mem {text : Bytes} (h : Group text) : 0 ∉ text := fun hNul =>
  absurd (h.2 0 hNul) (by decide)

/-- Groups with colons between them have no NUL. -/
theorem Groups.nul_not_mem {tail : Bool} {text : Bytes} (h : Groups tail text) : 0 ∉ text := by
  rcases h with rfl | ⟨hFront, hLast⟩
  · simp
  · intro hMem
    obtain ⟨part, hPart, hNul⟩ := mem_part hMem (show 0 ≠ colon by decide)
    have hNe := List.ne_nil_of_mem hPart
    rw [← List.dropLast_concat_getLast hNe] at hPart
    rcases List.mem_append.mp hPart with hPart | hPart
    · exact (hFront part hPart).nul_not_mem hNul
    · rw [List.mem_singleton.mp hPart] at hNul
      rcases hLast _ (List.getLast?_eq_some_getLast hNe) with hGroup | ⟨-, hDotted⟩
      · exact hGroup.nul_not_mem hNul
      · exact hDotted.nul_not_mem hNul

/-- The text is cut at its two colons. -/
theorem cutElision_eq {text left right : Bytes} (h : cutElision text = some (left, right)) :
    text = left ++ colon :: colon :: right := by
  induction text generalizing left with
  | nil => cases h
  | cons c text ih =>
      rw [cutElision] at h
      split_ifs at h with hElision
      · cases h
        obtain ⟨rfl, hNext⟩ := hElision
        cases text with
        | nil => cases hNext
        | cons d text => simp_all
      · obtain ⟨⟨front, back⟩, hCut, hEq⟩ := Option.map_eq_some_iff.mp h
        cases hEq
        rw [ih hCut, List.cons_append]

/-- A text that parses ends at its first NUL, so it has none inside. -/
theorem nul_not_mem_of_parseInet {text address : Bytes} (h : parseInet text = some address) : 0 ∉ text := by
  unfold parseInet at h
  split_ifs at h with hDotted
  exact hDotted.nul_not_mem

theorem nul_not_mem_of_parseInet6 {text address : Bytes} (h : parseInet6 text = some address) : 0 ∉ text := by
  unfold parseInet6 at h
  split at h
  · split_ifs at h with hGroups
    exact hGroups.1.nul_not_mem
  · next left right hCut =>
      dsimp only at h
      split_ifs at h with hSides
      rw [cutElision_eq hCut]
      have hLeft := hSides.1.nul_not_mem
      have hRight := hSides.2.1.nul_not_mem
      simp [hLeft, hRight, colon]

/-! ### Texts that are written out -/

/-- Four decimal numbers are the text of their bytes. -/
theorem parseInet_intercalate {octets : List Bytes} (hLength : octets.length = 4)
    (hOctets : ∀ octet ∈ octets, Octet octet) :
    parseInet ([dot].intercalate octets) = some (octets.map fun part => UInt8.ofNat (number 10 part)) := by
  have hSplit : ([dot].intercalate octets).splitOn dot = octets := by
    refine List.splitOn_intercalate dot ?_ (by rintro rfl; cases hLength)
    exact fun octet hOctet hDot => absurd ((hOctets octet hOctet).2.1 dot hDot) (by decide)
  have hDotted : Dotted ([dot].intercalate octets) := by
    unfold Dotted
    rw [hSplit]
    exact ⟨hLength, hOctets⟩
  rw [parseInet, if_pos hDotted, dottedBytes, hSplit]

/-- Two colons next to each other leave an empty part between them. -/
theorem nil_mem_splitOn {text left right : Bytes} (h : cutElision text = some (left, right)) :
    [] ∈ text.splitOn colon := by
  have hRight : (colon :: right).splitOn colon = [] :: right.splitOn colon := List.splitOn_append_cons_self [] right
  rw [cutElision_eq h, List.splitOn_append_cons_self, hRight]
  simp

/-- Eight groups with colons between them are the text of their bytes. -/
theorem parseInet6_intercalate {groups : List Bytes} (hLength : groups.length = 8)
    (hGroups : ∀ group ∈ groups, Group group) :
    parseInet6 ([colon].intercalate groups) = some (groups.flatMap pieceBytes) := by
  have hSplit : ([colon].intercalate groups).splitOn colon = groups := by
    refine List.splitOn_intercalate colon ?_ (by rintro rfl; cases hLength)
    exact fun group hGroup hColon => absurd ((hGroups group hGroup).2 colon hColon) (by decide)
  have hCut : cutElision ([colon].intercalate groups) = none := by
    cases hCut : cutElision ([colon].intercalate groups) with
    | none => rfl
    | some sides =>
        have hNil := nil_mem_splitOn hCut
        rw [hSplit] at hNil
        exact absurd (hGroups [] hNil).1.1 (by decide)
  have hText : [colon].intercalate groups ≠ [] := by
    intro hNil
    rw [hNil] at hSplit
    rw [← hSplit] at hLength
    cases hLength
  have hWhole : Groups true ([colon].intercalate groups) := by
    unfold Groups
    rw [hSplit]
    refine .inr ⟨fun part hPart => hGroups part (List.mem_of_mem_dropLast hPart), fun part hPart => .inl ?_⟩
    exact hGroups part (List.mem_of_getLast? hPart)
  have hBytes : groupsBytes ([colon].intercalate groups) = groups.flatMap pieceBytes := by
    rw [groupsBytes, if_neg hText, hSplit]
  have hPiece : ∀ group ∈ groups, (pieceBytes group).length = 2 := by
    intro group hGroup
    rw [pieceBytes, if_pos (hGroups group hGroup)]
    rfl
  have hSixteen : (groups.flatMap pieceBytes).length = 16 := by
    rw [List.length_flatMap, List.map_congr_left hPiece]
    simp [hLength]
  simp only [parseInet6, hCut, hWhole, hBytes, hSixteen, and_self, if_true]

end ImpactSockets.Networking
