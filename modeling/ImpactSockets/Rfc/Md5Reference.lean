import Mathlib.Data.List.GetD
import ImpactSockets.Library.BlockStream
import ImpactSockets.Rfc.Md5

/-! MD5 of RFC 1321, and `md5::digest` as an implementation of it. -/
namespace ImpactSockets.Md5

open BlockStream

/-! ### The reference -/

/-- A block of 16 words. -/
abbrev Block : Type := Vector UInt8 64

/-- Word `k` of a block, the low-order byte first. -/
def blockWord (block : Block) (k : Nat) : BitVec 32 :=
  BitVec.ofNat 32 (ofLittleEndian ((block.toList.drop (4 * k)).take 4))

/-- A round: its function, which words its 16 operations take, and how far they rotate. -/
structure Round where
  f : BitVec 32 → BitVec 32 → BitVec 32 → BitVec 32
  order : List Nat
  amounts : List Nat

/-- The round of `F`. -/
def round1 : Round where
  f x y z := (x &&& y) ||| (~~~x &&& z)
  order := [0, 1, 2, 3, 4, 5, 6, 7, 8, 9, 10, 11, 12, 13, 14, 15]
  amounts := [7, 12, 17, 22]

/-- The round of `G`. -/
def round2 : Round where
  f x y z := (x &&& z) ||| (y &&& ~~~z)
  order := [1, 6, 11, 0, 5, 10, 15, 4, 9, 14, 3, 8, 13, 2, 7, 12]
  amounts := [5, 9, 14, 20]

/-- The round of `H`. -/
def round3 : Round where
  f x y z := x ^^^ y ^^^ z
  order := [5, 8, 11, 14, 1, 4, 7, 10, 13, 0, 3, 6, 9, 12, 15, 2]
  amounts := [4, 11, 16, 23]

/-- The round of `I`. -/
def round4 : Round where
  f x y z := y ^^^ (x ||| ~~~z)
  order := [0, 7, 14, 5, 12, 3, 10, 1, 8, 15, 6, 13, 4, 11, 2, 9]
  amounts := [6, 10, 15, 21]

namespace Round

variable (round : Round) (x : Nat → BitVec 32) (first : Nat)

/-- `[abcd k s i]`, with what `a` is set to. -/
def operation (n : Nat) (a b c d : BitVec 32) : BitVec 32 :=
  b + (a + round.f b c d + x (round.order.getD n 0) + (K 32).getD (first + n) 0).rotateLeft
    (round.amounts.getD (n % 4) 0)

/-- `[ABCD] [DABC] [CDAB] [BCDA]`. -/
def line (r : Registers 32) (i : Nat) : Registers 32 :=
  let a := round.operation x first (4 * i) r.a r.b r.c r.d
  let d := round.operation x first (4 * i + 1) r.d a r.b r.c
  let c := round.operation x first (4 * i + 2) r.c d a r.b
  let b := round.operation x first (4 * i + 3) r.b c d a
  ⟨a, b, c, d⟩

/-- The four lines of a round. -/
def run (r : Registers 32) : Registers 32 := (List.range 4).foldl (round.line x first) r

end Round

/-- What a block makes of the hash. -/
def compress (hash : Registers 32) (block : Block) : Registers 32 :=
  let x := blockWord block
  let r := round4.run x 48 (round3.run x 32 (round2.run x 16 (round1.run x 0 hash)))
  ⟨hash.a + r.a, hash.b + r.b, hash.c + r.c, hash.d + r.d⟩

/-- The digest of a sequence of blocks. -/
def reference (blocks : List Block) : Bytes :=
  let hash := blocks.foldl compress ⟨0x67452301, 0xefcdab89, 0x98badcfe, 0x10325476⟩
  littleEndian 4 hash.a.toNat ++ littleEndian 4 hash.b.toNat ++ littleEndian 4 hash.c.toNat ++
    littleEndian 4 hash.d.toNat

/-! ### Rounds -/

/-- The two shifts of the source are a rotation. -/
theorem rotate_eq (word : BitVec 32) {amount : Nat} (h : amount < 32) :
    (word <<< amount) ||| (word >>> (32 - amount)) = word.rotateLeft amount := by
  rw [BitVec.rotateLeft_eq_rotateLeftAux_of_lt h]
  rfl

/-- The main loop computes a round, from an index on. -/
structure Computes (round : Round) (first : Nat) : Prop where
  select : ∀ n < 16, ∀ r : Registers 32, select mask32OfUint32 (first + n) r = (round.f r.b r.c r.d, round.order.getD n 0)
  order : ∀ n < 16, round.order.getD n 0 < 16
  amount : ∀ n < 16, s.getD (first + n) 0 = round.amounts.getD (n % 4) 0 ∧ s.getD (first + n) 0 < 32

/-- The first round, with its function, its order of words and its shifts. -/
theorem round1_computes : Computes round1 0 where
  select n hn r := by
    rw [select, if_pos (by omega), show round1.order.getD n 0 = 0 + n by revert n; decide]
    rfl
  order := by decide
  amount := by decide

theorem round2_computes : Computes round2 16 where
  select n hn r := by
    rw [select, if_neg (by omega), if_pos (by omega),
      show round2.order.getD n 0 = (5 * (16 + n) + 1) % 16 by revert n; decide]
    rfl
  order := by decide
  amount := by decide

theorem round3_computes : Computes round3 32 where
  select n hn r := by
    rw [select, if_neg (by omega), if_neg (by omega), if_pos (by omega),
      show round3.order.getD n 0 = (3 * (32 + n) + 5) % 16 by revert n; decide]
    rfl
  order := by decide
  amount := by decide

theorem round4_computes : Computes round4 48 where
  select n hn r := by
    rw [select, if_neg (by omega), if_neg (by omega), if_neg (by omega),
      show round4.order.getD n 0 = 7 * (48 + n) % 16 by revert n; decide]
    rfl
  order := by decide
  amount := by decide

section

variable {round : Round} {first : Nat} (computes : Computes round first) (x : Nat → BitVec 32)

include computes

/-- One step of the code is one operation of the RFC, with the registers renamed. -/
theorem step_eq {n : Nat} (hn : n < 16) (r : Registers 32) :
    step mask32OfUint32 ((List.range 16).map x) r (first + n) =
      ⟨r.d, round.operation x first n r.a r.b r.c r.d, r.b, r.c⟩ := by
  have hWord : ((List.range 16).map x).getD (round.order.getD n 0) 0 = x (round.order.getD n 0) := by
    rw [List.getD_eq_getElem _ _ (by simpa using computes.order n hn), List.getElem_map, List.getElem_range]
  have hSum (f a k m : BitVec 32) : f + a + k + m = a + f + m + k := by ac_rfl
  obtain ⟨hAmount, hSmall⟩ := computes.amount n hn
  simp only [step, computes.select n hn, hWord, mask32OfUint32, rotate_eq _ hSmall, hSum]
  rw [Round.operation, hAmount]

/-- Four steps are a line of the RFC, after which the registers have their names again. -/
theorem line_eq {i : Nat} (hi : i < 4) (r : Registers 32) :
    (List.range 4).foldl (fun r j => step mask32OfUint32 ((List.range 16).map x) r (first + (i * 4 + j))) r =
      round.line x first r i := by
  rw [Nat.mul_comm]
  simp only [show List.range 4 = [0, 1, 2, 3] from rfl, List.foldl_cons, List.foldl_nil]
  rw [step_eq computes x (by omega), step_eq computes x (by omega), step_eq computes x (by omega),
    step_eq computes x (by omega)]
  rfl

/-- Sixteen steps are a round. -/
theorem run_eq (r : Registers 32) :
    (List.range 16).foldl (fun r n => step mask32OfUint32 ((List.range 16).map x) r (first + n)) r =
      round.run x first r := by
  rw [Round.run, ← List.foldl_ext _ _ r fun r i hi => line_eq computes x (List.mem_range.mp hi) r]
  exact foldl_range_mul _ 4 4 r

end

/-- The 64 steps are the four rounds. -/
theorem rounds_eq (x : Nat → BitVec 32) (r : Registers 32) :
    (List.range 64).foldl (step mask32OfUint32 ((List.range 16).map x)) r =
      round4.run x 48 (round3.run x 32 (round2.run x 16 (round1.run x 0 r))) := by
  rw [show 64 = 4 * 16 from rfl, foldl_range_mul]
  simp only [show List.range 4 = [0, 1, 2, 3] from rfl, List.foldl_cons, List.foldl_nil, Nat.reduceMul,
    run_eq round1_computes, run_eq round2_computes, run_eq round3_computes, run_eq round4_computes]

/-- The main loop is the four rounds. -/
theorem processChunk_eq (hash : Registers 32) (block : Block) :
    processChunk mask32OfUint32 ((List.range 16).map (blockWord block)) hash = compress hash block := by
  rw [processChunk, rounds_eq, compress]
  rfl

/-! ### Words and octets -/

/-- An octet is not changed by its mask and does not leave the word. -/
theorem mask8_shiftLeft (octet : UInt8) {shift : Nat} (h : shift ≤ 24) :
    (mask8 octet <<< shift).toNat = octet.toNat <<< shift := by
  have hOctet := octet.toNat_lt
  rw [mask8, BitVec.toNat_shiftLeft, BitVec.toNat_setWidth, UInt8.toNat_toBitVec,
    @Nat.mod_eq_of_lt octet.toNat (2 ^ 32) (by omega), Nat.mod_eq_of_lt (shiftLeft_lt octet h)]

/-- The octets do not overlap. -/
theorem assemble_eq (octet0 octet1 octet2 octet3 : UInt8) : assemble octet0 octet1 octet2 octet3 =
    BitVec.ofNat 32 (ofLittleEndian [octet0, octet1, octet2, octet3]) := by
  have hNumber : (assemble octet0 octet1 octet2 octet3).toNat = ofLittleEndian [octet0, octet1, octet2, octet3] := by
    rw [assemble, BitVec.toNat_or, BitVec.toNat_or, BitVec.toNat_or, mask8_shiftLeft _ (by decide),
      mask8_shiftLeft _ (by decide), mask8_shiftLeft _ (by decide), mask8_shiftLeft _ (by decide),
      or_shiftLeft_eq_ofLittleEndian]
  rw [← hNumber, BitVec.ofNat_toNat, BitVec.setWidth_eq]

/-- The octets of a word, the lowest first. -/
theorem octet_eq (word : BitVec 32) (i : Nat) :
    UInt8.ofBitVec ((0xFF &&& (word >>> (8 * i))).setWidth 8) = UInt8.ofNat (word.toNat / 256 ^ i) := by
  apply UInt8.toNat_inj.mp
  rw [UInt8.toNat_ofBitVec, UInt8.toNat_ofNat', BitVec.toNat_setWidth, BitVec.toNat_and, BitVec.toNat_ushiftRight,
    Nat.shiftRight_eq_div_pow, Nat.pow_mul, Nat.and_comm, show (0xFF : BitVec 32).toNat = 2 ^ 8 - 1 from rfl,
    Nat.and_two_pow_sub_one_eq_mod, Nat.mod_mod]

/-- The digest is the four registers, the lowest octet first. -/
theorem output_eq (hash : Registers 32) : output hash =
    littleEndian 4 hash.a.toNat ++ littleEndian 4 hash.b.toNat ++ littleEndian 4 hash.c.toNat ++
      littleEndian 4 hash.d.toNat := by
  have hWord (word : BitVec 32) : ([0, 8, 16, 24].map fun (shift : Nat) =>
      UInt8.ofBitVec ((0xFF &&& (word >>> shift)).setWidth 8)) = littleEndian 4 word.toNat := by
    rw [littleEndian, show [0, 8, 16, 24] = (List.range 4).map (8 * ·) from rfl, List.map_map]
    exact List.map_congr_left fun i _ => octet_eq word i
  simp only [output, hWord, List.flatMap_cons, List.flatMap_nil, List.append_nil, List.append_assoc]

/-! ### Reads -/

/-- The code yields a value, and reads at these indices in this order. -/
def Reads {α : Type} (act : Reading α) (value : α) (indices : List Nat) : Prop :=
  ∀ reads, act reads = some (value, reads ++ indices)

namespace Reads

variable {α β : Type} {act : Reading α} {value : α} {indices : List Nat}

theorem pure (value : α) : Reads (Pure.pure value) value [] := by
  intro reads
  rw [List.append_nil]
  rfl

/-- Two reads in sequence read the octets of both. -/
theorem bind {next : α → Reading β} {result : β} {others : List Nat} (h : Reads act value indices)
    (hNext : Reads (next value) result others) : Reads (act >>= next) result (indices ++ others) := by
  intro reads
  rw [← List.append_assoc, ← hNext]
  exact congrArg (fun answer => Option.bind answer fun p => next p.1 p.2) (h reads)

theorem map (f : α → β) (h : Reads act value indices) : Reads (f <$> act) (f value) indices := by
  rw [map_eq_pure_bind, ← List.append_nil indices]
  exact h.bind (pure (f value))

/-- Reads along a list, by induction on it. -/
theorem mapM {act : α → Reading β} {value : α → β} {indices : α → List Nat} {l : List α}
    (h : ∀ a ∈ l, Reads (act a) (value a) (indices a)) : Reads (l.mapM act) (l.map value) (l.flatMap indices) := by
  induction l with
  | nil =>
      rw [List.mapM_nil]
      exact pure []
  | cons a l ih =>
      rw [List.mapM_cons, List.flatMap_cons, ← List.append_nil (l.flatMap indices)]
      exact (h a List.mem_cons_self).bind ((ih fun b hb => h b (List.mem_cons_of_mem a hb)).bind (pure _))

end Reads

/-- One octet is fetched from its place, inside the message. -/
theorem fetch_reads (before octets rest : Bytes) {i : Nat} (h : i < octets.length) :
    Reads (fetch (before ++ (octets ++ rest)) (before.length + i)) octets[i] [before.length + i] := by
  intro reads
  rw [fetch, List.append_assoc, List.append_assoc, List.getElem?_append_right (by omega), Nat.add_sub_cancel_left,
    List.getElem?_append_left h, List.getElem?_eq_getElem h]
  rfl

/-- The octets of a word. -/
theorem take_drop_four {octets : Bytes} {i : Nat} (h : i + 3 < octets.length) : (octets.drop i).take 4 =
    [octets[i + 0], octets[i + 1], octets[i + 2], octets[i + 3]] := by
  rw [List.drop_eq_getElem_cons (by omega), List.drop_eq_getElem_cons (by omega), List.drop_eq_getElem_cons (by omega),
    List.drop_eq_getElem_cons h]
  rfl

/-- Four octets are fetched and assembled, the lowest first. -/
theorem word_reads (before : Bytes) (block : Block) (rest : Bytes) {k : Nat} (h : k < 16) :
    Reads (word (before ++ (block.toList ++ rest)) before.length k) (blockWord block k)
      (List.range' (before.length + k * 4) 4) := by
  have hLength : block.toList.length = 64 := block.length_toList
  have hFetch (i : Nat) (hi : k * 4 + i < block.toList.length) :
      Reads (fetch (before ++ (block.toList ++ rest)) (before.length + k * 4 + i)) block.toList[k * 4 + i]
        [before.length + k * 4 + i] := by
    rw [Nat.add_assoc]
    exact fetch_reads before block.toList rest hi
  rw [blockWord, Nat.mul_comm 4 k, take_drop_four (by omega), ← assemble_eq]
  exact (hFetch 0 (by omega)).bind ((hFetch 1 (by omega)).bind ((hFetch 2 (by omega)).bind ((hFetch 3 (by omega)).bind
    (Reads.pure _))))

/-- A block is fetched as its sixteen words. -/
theorem words_reads (before : Bytes) (block : Block) (rest : Bytes) :
    Reads (words (before ++ (block.toList ++ rest)) before.length) ((List.range 16).map (blockWord block))
      (List.range' before.length 64) := by
  rw [show List.range' before.length 64 = _ from range'_mul before.length 16 4]
  exact Reads.mapM fun k hk => word_reads before block rest (List.mem_range.mp hk)

/-- The body of the loop over the chunks. -/
theorem chunk_reads (blocks : List Block) {index : Nat} (h : index < blocks.length) (hash : Registers 32) :
    Reads (do
        let m ← words (content blocks) (64 * index)
        return processChunk mask32OfUint32 (m.map (BitVec.signExtend 32)) hash)
      (compress hash blocks[index]) (List.range' (64 * index) 64) := by
  have hSplit : content blocks =
      content (blocks.take index) ++ (blocks[index].toList ++ content (blocks.drop (index + 1))) := by
    rw [← content_cons, ← List.drop_eq_getElem_cons h, content, content, content, ← List.flatMap_append,
      List.take_append_drop]
  have hBefore : (content (blocks.take index)).length = 64 * index := by
    rw [length_content, List.length_take, Nat.min_eq_left (by omega)]
  have hWords := words_reads (content (blocks.take index)) blocks[index] (content (blocks.drop (index + 1)))
  rw [← hSplit, hBefore] at hWords
  rw [← processChunk_eq, ← List.append_nil (List.range' _ _)]
  refine hWords.bind ?_
  rw [show BitVec.signExtend 32 = id from funext BitVec.signExtend_eq, List.map_id]
  exact Reads.pure _

/-- The loop over the first chunks. -/
theorem processChunks_reads (blocks : List Block) {count : Nat} (h : count ≤ blocks.length) :
    Reads (processChunks mask32OfUint32 (content blocks) count) ((blocks.take count).foldl compress (initial 32))
      (List.range (64 * count)) := by
  induction count with
  | zero => exact Reads.pure _
  | succ count ih =>
      have hFirst := ih (by omega)
      have hIndices : List.range (64 * (count + 1)) = List.range (64 * count) ++ List.range' (64 * count) 64 := by
        rw [List.range_eq_range', List.range_eq_range', Nat.mul_succ, ← List.range'_append_1, Nat.zero_add]
      rw [processChunks] at hFirst ⊢
      rw [List.range_succ, List.foldlM_append, List.take_add_one, List.getElem?_eq_getElem h,
        Option.toList_some, List.foldl_append, hIndices]
      refine hFirst.bind ?_
      simp only [List.foldlM_cons, List.foldlM_nil, bind_pure]
      exact chunk_reads blocks h _

/-- On whole blocks every octet is read once, and nothing else. -/
theorem process_reads (blocks : List Block) :
    Reads (process mask32OfUint32 (content blocks)) (reference blocks) (List.range (content blocks).length) := by
  have hLength := length_content blocks
  have hChunks := processChunks_reads blocks (Nat.le_refl blocks.length)
  rw [List.take_length, ← hLength] at hChunks
  have hOutput := hChunks.map output
  rw [output_eq] at hOutput
  rw [process, show ((content blocks).length + 63) / 64 = blocks.length by omega]
  exact hOutput

/-! ### Padding -/

/-- The two cases of the zeros. -/
theorem zeroPadLength_eq (size : UInt64) :
    ((if (size + 1) % 64 ≤ 56 then 56 - (size + 1) % 64 else 120 - (size + 1) % 64) + 8).toNat =
      filling 64 (size.toNat + 1 + 8) + 8 := by
  have hModulo : ((size + 1) % 64).toNat = (size.toNat + 1) % 64 := by
    rw [UInt64.toNat_mod, UInt64.toNat_add, show UInt64.toNat 1 = 1 from rfl, show UInt64.toNat 64 = 64 from rfl]
    omega
  have hMod := Nat.mod_lt (size.toNat + 1) (show 0 < 64 by decide)
  generalize (size + 1) % 64 = modulo1 at hModulo
  have h8 : UInt64.toNat 8 = 8 := rfl
  have h56 : UInt64.toNat 56 = 56 := rfl
  have h120 : UInt64.toNat 120 = 120 := rfl
  rw [filling, UInt64.toNat_add, h8]
  by_cases hShort : modulo1 ≤ 56
  · have hSmall := UInt64.le_iff_toNat_le.mp hShort
    rw [if_pos hShort, UInt64.toNat_sub_of_le _ _ hShort]
    omega
  · have hLarge : ¬modulo1.toNat ≤ 56 := fun h => hShort (UInt64.le_iff_toNat_le.mpr h)
    have hBound : modulo1 ≤ 120 := UInt64.le_iff_toNat_le.mpr (by omega)
    rw [if_neg hShort, UInt64.toNat_sub_of_le _ _ hBound]
    omega

/-- The octets of the length in bits, the lowest first. -/
theorem trailer_eq {size : UInt64} (h : size.toNat < 2 ^ 61) {i : Nat} (hi : i < 8) :
    ((0xFF : UInt64) &&& ((size <<< 3) >>> (8 * UInt64.ofNat i))).toUInt8 = UInt8.ofNat (8 * size.toNat / 256 ^ i) := by
  have hBits : (size <<< 3).toNat = 8 * size.toNat := by
    rw [UInt64.toNat_shiftLeft, show UInt64.toNat 3 % 64 = 3 from rfl, Nat.shiftLeft_eq]
    omega
  have hShift : (8 * UInt64.ofNat i).toNat % 64 = 8 * i := by
    rw [UInt64.toNat_mul, UInt64.toNat_ofNat_of_lt' (show i < 2 ^ 64 by omega), show UInt64.toNat 8 = 8 from rfl]
    omega
  apply UInt8.toNat_inj.mp
  rw [UInt64.toNat_toUInt8, UInt64.toNat_and, UInt64.toNat_shiftRight, hBits, hShift, Nat.shiftRight_eq_div_pow,
    Nat.pow_mul, Nat.and_comm, show UInt64.toNat 0xFF = 2 ^ 8 - 1 from rfl, Nat.and_two_pow_sub_one_eq_mod, Nat.mod_mod,
    UInt8.toNat_ofNat']

/-- The code pads as the RFC does, below 2^61 octets. -/
theorem preprocess_eq (message : Bytes) (h : message.length < 2 ^ 61) :
    preprocess message = padded 64 0x80 0 message (littleEndian 8 (8 * message.length)) := by
  have hSize : (UInt64.ofNat message.length).toNat = message.length :=
    UInt64.toNat_ofNat_of_lt' (show message.length < 2 ^ 64 by omega)
  have hZeros := zeroPadLength_eq (UInt64.ofNat message.length)
  have hTrailer (i : Nat) (hi : i ∈ List.range 8) :=
    @trailer_eq (UInt64.ofNat message.length) (by omega) i (List.mem_range.mp hi)
  rw [hSize] at hZeros hTrailer
  let front := message ++ [0x80] ++ List.replicate (filling 64 (message.length + 1 + 8)) 0
  have hSplit : message ++ [0x80] ++ List.replicate (filling 64 (message.length + 1 + 8) + 8) 0 =
      front ++ List.replicate 8 0 := by
    rw [List.replicate_add, ← List.append_assoc]
  have hLength : (front ++ List.replicate 8 0).length - 8 = front.length := by
    rw [List.length_append, List.length_replicate, Nat.add_sub_cancel]
  simp only [preprocess, hZeros, hSplit, hLength]
  refine (foldl_set_range front (List.replicate 8 0) _).trans ?_
  rw [List.length_replicate, List.map_congr_left hTrailer, padded, length_littleEndian, littleEndian]
  simp [front]

/-- MD5 of a message as RFC 1321 has it. The padded message is read once, in order. -/
structure IsRfc1321 (message : Bytes) : Prop where
  pads : ∃ zeros, IsLeast {k | 64 ∣ message.length + 1 + 8 + k} zeros ∧
    preprocess message = message ++ 0x80 :: (List.replicate zeros 0 ++ littleEndian 8 (8 * message.length))
  whole : 64 ∣ (preprocess message).length
  digests : ∃ blocks : List Block, content blocks = preprocess message ∧
    process mask32OfUint32 (preprocess message) [] =
      some (reference blocks, List.range (preprocess message).length) ∧
    digest mask32OfUint32 message = some (reference blocks)

/-- Below 2^61 octets the digest is the one of the RFC. -/
theorem isRfc1321_of_lt (message : Bytes) (h : message.length < 2 ^ 61) : IsRfc1321 message := by
  have hPadded := preprocess_eq message h
  have hWhole : 64 ∣ (preprocess message).length := by
    rw [hPadded]
    exact dvd_length_padded (by decide) _ _ _ _
  obtain ⟨blocks, hContent⟩ := exists_blocks hWhole
  have hProcess := process_reads blocks []
  rw [hContent, List.nil_append] at hProcess
  refine ⟨⟨_, isLeast_filling (by decide) _, hPadded.trans ?_⟩, hWhole, blocks, hContent, hProcess, ?_⟩
  · rw [padded, length_littleEndian]
  · rw [digest, StateT.run'_eq, StateT.run, hProcess]
    rfl

/-- A message of the tests. -/
theorem isRfc1321_of_lt_abc : IsRfc1321 [0x61, 0x62, 0x63] := isRfc1321_of_lt [0x61, 0x62, 0x63] (by decide)

example : digest mask32OfUint32 [0x61, 0x62, 0x63] =
    some [0x90, 0x01, 0x50, 0x98, 0x3C, 0xD2, 0x4F, 0xB0, 0xD6, 0x96, 0x3F, 0x7D, 0x28, 0xE1, 0x7F, 0x72] := by
  decide +kernel

end ImpactSockets.Md5
