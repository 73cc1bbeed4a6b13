import Mathlib.Algebra.Group.Nat.Defs
import Mathlib.Order.Bounds.Defs

/-! Messages that are hashed block by block: sequences of whole blocks, and the
padding that fills a message up to one. -/
namespace BlockStream

variable {α : Type} {size : Nat}

/-! ### Blocks -/

/-- What a sequence of blocks holds. -/
def content (blocks : List (Vector α size)) : List α := blocks.flatMap Vector.toList

@[simp]
theorem content_nil : content ([] : List (Vector α size)) = [] := rfl

theorem content_cons (block : Vector α size) (blocks : List (Vector α size)) :
    content (block :: blocks) = block.toList ++ content blocks := List.flatMap_cons

/-- One more block at the end. -/
theorem content_concat (blocks : List (Vector α size)) (block : Vector α size) :
    content (blocks ++ [block]) = content blocks ++ block.toList := by
  simp [content, List.flatMap_append]

/-- Whole blocks have a multiple of the size. -/
theorem length_content (blocks : List (Vector α size)) : (content blocks).length = size * blocks.length := by
  induction blocks with
  | nil => rfl
  | cons block blocks ih =>
      rw [content_cons, List.length_append, ih, Vector.length_toList, List.length_cons, Nat.mul_succ, Nat.add_comm]

/-- The blocks can be told from what they hold. -/
theorem content_injective (hSize : 0 < size) {first second : List (Vector α size)} (h : content first = content second) :
    first = second := by
  have hLength : first.length = second.length := by
    have hContent := congrArg List.length h
    rw [length_content, length_content] at hContent
    exact Nat.eq_of_mul_eq_mul_left hSize hContent
  induction first generalizing second with
  | nil => exact (List.length_eq_zero_iff.mp hLength.symm).symm
  | cons block first ih =>
      cases second with
      | nil => cases hLength
      | cons other second =>
          rw [content_cons, content_cons] at h
          obtain ⟨hBlock, hRest⟩ := List.append_inj h (by simp)
          rw [Vector.toList_inj.mp hBlock, ih hRest (Nat.succ.inj hLength)]

/-- What is as long as some blocks is the content of some. -/
theorem exists_blocks {l : List α} (h : size ∣ l.length) : ∃ blocks : List (Vector α size), content blocks = l := by
  obtain ⟨count, hCount⟩ := h
  induction count generalizing l with
  | zero => exact ⟨[], (List.length_eq_zero_iff.mp hCount).symm⟩
  | succ count ih =>
      rw [Nat.mul_succ] at hCount
      obtain ⟨blocks, hBlocks⟩ := @ih (l.drop size) (by rw [List.length_drop]; omega)
      refine ⟨⟨(l.take size).toArray, by simp; omega⟩ :: blocks, ?_⟩
      rw [content_cons, hBlocks]
      exact List.take_append_drop size l

/-! ### Padding -/

/-- How many elements are missing from `count` to whole blocks. -/
def filling (size count : Nat) : Nat := (size - count % size) % size

/-- The filling is the least that makes whole blocks. -/
theorem isLeast_filling (hSize : 0 < size) (count : Nat) : IsLeast {k | size ∣ count + k} (filling size count) := by
  have hMod := Nat.mod_lt count hSize
  have hDiv := Nat.div_add_mod count size
  constructor
  · change size ∣ count + filling size count
    rw [filling]
    by_cases hZero : count % size = 0
    · rw [hZero, Nat.sub_zero, Nat.mod_self, Nat.add_zero]
      exact Nat.dvd_of_mod_eq_zero hZero
    · rw [Nat.mod_eq_of_lt (by omega)]
      refine ⟨count / size + 1, ?_⟩
      rw [Nat.mul_succ]
      omega
  · rintro k ⟨blocks, hBlocks⟩
    refine Nat.le_of_not_lt fun hSmall => ?_
    have hFilling : filling size count ≤ size - count % size := Nat.mod_le _ _
    have hRest : (count % size + k) % size = 0 := by
      rw [Nat.mod_add_mod, hBlocks, Nat.mul_mod_right]
    rw [Nat.mod_eq_of_lt (by omega)] at hRest
    rw [filling, show count % size = 0 by omega, Nat.sub_zero, Nat.mod_self] at hSmall
    exact Nat.not_lt_zero k hSmall

/-- The message, a mark, as few zeros as make whole blocks, and a trailer. -/
def padded (size : Nat) (mark zero : α) (message trailer : List α) : List α :=
  message ++ mark :: (List.replicate (filling size (message.length + 1 + trailer.length)) zero ++ trailer)

/-- The length of a padded message. -/
theorem length_padded (mark zero : α) (message trailer : List α) :
    (padded size mark zero message trailer).length =
      message.length + 1 + trailer.length + filling size (message.length + 1 + trailer.length) := by
  simp only [padded, List.length_append, List.length_cons, List.length_replicate]
  omega

/-- A padded message is a number of whole blocks. -/
theorem dvd_length_padded (hSize : 0 < size) (mark zero : α) (message trailer : List α) :
    size ∣ (padded size mark zero message trailer).length := by
  rw [length_padded]
  exact (isLeast_filling hSize _).1

/-! ### Numbers -/

/-- The low bytes of a number, the lowest one first. -/
def littleEndian (count n : Nat) : List UInt8 := (List.range count).map fun i => UInt8.ofNat (n / 256 ^ i)

/-- The number of some bytes, the lowest one first. -/
def ofLittleEndian (octets : List UInt8) : Nat := octets.foldr (fun octet n => octet.toNat + 256 * n) 0

/-- The low bytes of a number, the highest one first. -/
def bigEndian (count n : Nat) : List UInt8 := (littleEndian count n).reverse

@[simp]
theorem length_littleEndian (count n : Nat) : (littleEndian count n).length = count := by
  simp [littleEndian]

@[simp]
theorem length_bigEndian (count n : Nat) : (bigEndian count n).length = count := by
  simp [bigEndian]

/-- The lowest octet stands first. -/
theorem littleEndian_succ (count n : Nat) :
    littleEndian (count + 1) n = UInt8.ofNat n :: littleEndian count (n / 256) := by
  simp [littleEndian, List.range_succ_eq_map, Nat.pow_succ', Nat.div_div_eq_div_mul]

/-- The low bytes of a number are the number up to what they have no room for. -/
theorem ofLittleEndian_littleEndian (count n : Nat) : ofLittleEndian (littleEndian count n) = n % 256 ^ count := by
  induction count generalizing n with
  | zero => rw [Nat.pow_zero, Nat.mod_one]; rfl
  | succ count ih =>
      have hCons : ofLittleEndian (littleEndian (count + 1) n) =
          (UInt8.ofNat n).toNat + 256 * ofLittleEndian (littleEndian count (n / 256)) := by
        rw [littleEndian_succ]
        rfl
      rw [hCons, ih, Nat.pow_succ', Nat.mod_mul, UInt8.toNat_ofNat']

/-- An octet shifted by at most 24 places stays in a word. -/
theorem shiftLeft_lt (octet : UInt8) {shift : Nat} (h : shift ≤ 24) : octet.toNat <<< shift < 2 ^ 32 := by
  rw [Nat.shiftLeft_eq]
  calc
    octet.toNat * 2 ^ shift < 2 ^ 8 * 2 ^ shift := Nat.mul_lt_mul_of_pos_right octet.toNat_lt (Nat.two_pow_pos shift)
    _ ≤ 2 ^ 8 * 2 ^ 24 := Nat.mul_le_mul_left _ (Nat.pow_le_pow_right (by decide) h)

/-- Four bytes that are shifted to their places are put together to their number. -/
theorem or_shiftLeft_eq_ofLittleEndian (octet0 octet1 octet2 octet3 : UInt8) :
    octet0.toNat <<< 0 ||| octet1.toNat <<< 8 ||| octet2.toNat <<< 16 ||| octet3.toNat <<< 24 =
      ofLittleEndian [octet0, octet1, octet2, octet3] := by
  have hOr (octet : UInt8) (n : Nat) : octet.toNat + 256 * n = n <<< 8 ||| octet.toNat := by
    rw [← Nat.shiftLeft_add_eq_or_of_lt octet.toNat_lt, Nat.shiftLeft_eq, Nat.mul_comm, Nat.add_comm]
  have hReverse (n0 n1 n2 n3 : Nat) : n0 ||| n1 ||| n2 ||| n3 = n3 ||| n2 ||| n1 ||| n0 := by ac_rfl
  have hNested (n0 n1 n2 n3 : Nat) : n0 <<< 0 ||| n1 <<< 8 ||| n2 <<< 16 ||| n3 <<< 24 =
      ((n3 <<< 8 ||| n2) <<< 8 ||| n1) <<< 8 ||| n0 := by
    rw [hReverse, Nat.shiftLeft_or_distrib, Nat.shiftLeft_or_distrib, Nat.shiftLeft_or_distrib,
      ← Nat.shiftLeft_add, ← Nat.shiftLeft_add, ← Nat.shiftLeft_add, Nat.shiftLeft_zero]
  rw [hNested, ← hOr, ← hOr, ← hOr]
  rfl

/-! ### Loops -/

/-- A loop over the elements of blocks, block by block. -/
theorem foldl_range_mul {β : Type} (f : β → Nat → β) (count size : Nat) (b : β) :
    (List.range (count * size)).foldl f b =
      (List.range count).foldl (fun b i => (List.range size).foldl (fun b j => f b (i * size + j)) b) b := by
  induction count with
  | zero => rw [Nat.zero_mul]; rfl
  | succ count ih =>
      rw [Nat.succ_mul, List.range_add, List.foldl_append, ih, List.foldl_map, List.range_succ, List.foldl_append]
      rfl

/-- The indices of the elements, block by block. -/
theorem range'_mul (start count size : Nat) : List.range' start (count * size) =
    (List.range count).flatMap fun i => List.range' (start + i * size) size := by
  induction count with
  | zero => rw [Nat.zero_mul]; rfl
  | succ count ih =>
      rw [Nat.succ_mul, ← List.range'_append_1, ih, List.range_succ, List.flatMap_append]
      simp

/-- A loop that overwrites the end of a list. -/
theorem foldl_set_range (front back : List α) (f : Nat → α) :
    (List.range back.length).foldl (fun l i => l.set (front.length + i) (f i)) (front ++ back) =
      front ++ (List.range back.length).map f := by
  suffices h : ∀ count ≤ back.length,
      (List.range count).foldl (fun l i => l.set (front.length + i) (f i)) (front ++ back) =
        front ++ ((List.range count).map f ++ back.drop count) by
    rw [h back.length (Nat.le_refl _), List.drop_length, List.append_nil]
  intro count hCount
  induction count with
  | zero => rfl
  | succ count ih =>
      rw [List.range_succ, List.foldl_append, ih (by omega), List.foldl_cons, List.foldl_nil,
        List.set_append_right _ _ (by omega), Nat.add_sub_cancel_left, List.set_append_right _ _ (by simp), List.length_map,
        List.length_range, Nat.sub_self, List.drop_eq_getElem_cons hCount, List.set_cons_zero, List.map_append,
        List.append_assoc]
      rfl

end BlockStream
