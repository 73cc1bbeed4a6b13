import ImpactSockets.Rfc.Sha1Streaming

/-! SHA-1 of RFC 3174, and `sha1::digest` as an implementation of it. -/
namespace ImpactSockets.Sha1

open BlockStream

/-! ### The reference -/

namespace Reference

/-- Word `t` of a block, the high-order byte first. -/
def blockWord (block : Block) (t : Nat) : BitVec 32 :=
  BitVec.ofNat 32 (ofLittleEndian ((block.toList.drop (4 * t)).take 4).reverse)

/-- `W(t)`. -/
def w (block : Block) (t : Nat) : BitVec 32 :=
  if t < 16 then blockWord block t
  else (w block (t - 3) ^^^ w block (t - 8) ^^^ w block (t - 14) ^^^ w block (t - 16)).rotateLeft 1
termination_by t
decreasing_by all_goals omega

/-- `f(t;B,C,D)`. -/
def f (t : Nat) (b c d : BitVec 32) : BitVec 32 :=
  if t < 20 then (b &&& c) ||| (~~~b &&& d)
  else if t < 40 then b ^^^ c ^^^ d
  else if t < 60 then (b &&& c) ||| (b &&& d) ||| (c &&& d)
  else b ^^^ c ^^^ d

/-- `K(t)`. -/
def k (t : Nat) : BitVec 32 :=
  if t < 20 then 0x5A827999 else if t < 40 then 0x6ED9EBA1 else if t < 60 then 0x8F1BBCDC else 0xCA62C1D6

/-- The five word buffers. -/
structure Words where
  a : BitVec 32
  b : BitVec 32
  c : BitVec 32
  d : BitVec 32
  e : BitVec 32
deriving DecidableEq

/-- One of the 80 steps. -/
def step (block : Block) (r : Words) (t : Nat) : Words :=
  ⟨r.a.rotateLeft 5 + f t r.b r.c r.d + r.e + w block t + k t, r.a, r.b.rotateLeft 30, r.c, r.d⟩

/-- What a block makes of the hash. -/
def compress (hash : Words) (block : Block) : Words :=
  let r := (List.range 80).foldl (step block) hash
  ⟨hash.a + r.a, hash.b + r.b, hash.c + r.c, hash.d + r.d, hash.e + r.e⟩

/-- `H0` to `H4` to begin with. -/
def initial : Words := ⟨0x67452301, 0xEFCDAB89, 0x98BADCFE, 0x10325476, 0xC3D2E1F0⟩

/-- The digest of a sequence of blocks. -/
def digest (blocks : List Block) : Bytes :=
  let hash := blocks.foldl compress initial
  bigEndian 4 hash.a.toNat ++ bigEndian 4 hash.b.toNat ++ bigEndian 4 hash.c.toNat ++ bigEndian 4 hash.d.toNat ++
    bigEndian 4 hash.e.toNat

end Reference

/-! ### Words -/

/-- The macro is a rotation for shifts from 1 to 31. -/
theorem toBitVec_circularShift (word : UInt32) {bits : UInt32} (hPos : 0 < bits.toNat) (hLt : bits.toNat < 32) :
    (circularShift bits word).toBitVec = word.toBitVec.rotateLeft bits.toNat := by
  have hSub : (32 - bits).toNat = 32 - bits.toNat := UInt32.toNat_sub_of_le _ _
    (UInt32.le_iff_toNat_le.mpr (by simpa using hLt.le))
  rw [BitVec.rotateLeft_eq_rotateLeftAux_of_lt hLt]
  apply BitVec.eq_of_toNat_eq
  simp only [circularShift, UInt32.toBitVec_or, BitVec.rotateLeftAux, BitVec.toNat_or, UInt32.toNat_toBitVec]
  rw [UInt32.toNat_shiftLeft, UInt32.toNat_shiftRight, hSub, BitVec.toNat_shiftLeft, BitVec.toNat_ushiftRight,
    Nat.mod_eq_of_lt hLt, Nat.mod_eq_of_lt (show 32 - bits.toNat < 32 by omega), UInt32.toNat_toBitVec]

theorem toNat_octet_shiftLeft (octet : UInt8) {shift : UInt32} (h : shift.toNat ≤ 24) :
    (octet.toUInt32 <<< shift).toNat = octet.toNat <<< shift.toNat := by
  rw [UInt32.toNat_shiftLeft, UInt8.toNat_toUInt32, Nat.mod_eq_of_lt (show shift.toNat < 32 by omega),
    Nat.mod_eq_of_lt (shiftLeft_lt octet h)]

/-- The octets of a word do not overlap. -/
theorem toBitVec_blockWord (block : Block) (t : Fin 16) :
    (blockWord block t).toBitVec = Reference.blockWord block t.val := by
  have hIndex := t.isLt
  have hLength : block.toList.length = 64 := block.length_toList
  have hOctets : (block.toList.drop (4 * t.val)).take 4 =
      [block[t.val * 4], block[t.val * 4 + 1], block[t.val * 4 + 2], block[t.val * 4 + 3]] := by
    rw [List.drop_eq_getElem_cons (by omega), List.drop_eq_getElem_cons (by omega),
      List.drop_eq_getElem_cons (by omega), List.drop_eq_getElem_cons (by omega)]
    simp [Nat.mul_comm]
  have hReverse (n0 n1 n2 n3 : Nat) : n0 ||| n1 ||| n2 ||| n3 = n3 ||| n2 ||| n1 ||| n0 := by ac_rfl
  apply BitVec.eq_of_toNat_eq
  rw [Reference.blockWord, hOctets, BitVec.toNat_ofNat, UInt32.toNat_toBitVec]
  simp only [List.reverse_cons, List.reverse_nil, List.nil_append, List.cons_append]
  rw [← or_shiftLeft_eq_ofLittleEndian, blockWord, UInt32.toNat_or, UInt32.toNat_or, UInt32.toNat_or,
    toNat_octet_shiftLeft _ (by decide), toNat_octet_shiftLeft _ (by decide), toNat_octet_shiftLeft _ (by decide),
    UInt8.toNat_toUInt32, hReverse, Nat.shiftLeft_zero]
  refine (Nat.mod_eq_of_lt ?_).symm
  exact Nat.or_lt_two_pow (Nat.or_lt_two_pow (Nat.or_lt_two_pow
    (by simpa using shiftLeft_lt block[t.val * 4 + 3] (show 0 ≤ 24 by decide))
    (shiftLeft_lt _ (by decide))) (shiftLeft_lt _ (by decide))) (shiftLeft_lt _ (by decide))

/-! ### The word sequence -/

/-- The array holds the words of the recurrence up to its end. -/
structure Sequence (block : Block) (w : Array UInt32) : Prop where
  first : 16 ≤ w.size
  words : ∀ t < w.size, (w.getD t 0).toBitVec = Reference.w block t

/-- The first sixteen words are those of the block. -/
theorem sequence_block (block : Block) : Sequence block (Array.ofFn (blockWord block)) where
  first := by simp
  words t ht := by
    have hIndex : t < 16 := by simpa using ht
    rw [Reference.w, if_pos hIndex, ← toBitVec_blockWord block ⟨t, hIndex⟩]
    simp [Array.getD, hIndex]

/-- The word that is pushed keeps the recurrence. -/
theorem Sequence.next {block : Block} {w : Array UInt32} (h : Sequence block w) :
    Sequence block (w.push (nextWord w)) where
  first := by
    have hFirst := h.first
    rw [Array.size_push]
    omega
  words t ht := by
    have hFirst := h.first
    rw [Array.size_push] at ht
    rcases Nat.lt_or_ge t w.size with hOld | hNew
    · rw [← h.words t hOld]
      simp [Array.getD, hOld, Array.getElem_push, Nat.lt_succ_of_lt hOld]
    · obtain rfl : t = w.size := by omega
      rw [Reference.w, if_neg (by omega), ← h.words _ (by omega), ← h.words _ (by omega), ← h.words _ (by omega),
        ← h.words _ (by omega)]
      have hRotate := toBitVec_circularShift (w.getD (w.size - 3) 0 ^^^ w.getD (w.size - 8) 0 ^^^
        w.getD (w.size - 14) 0 ^^^ w.getD (w.size - 16) 0) (show 0 < UInt32.toNat 1 by decide) (by decide)
      rw [UInt32.toBitVec_xor, UInt32.toBitVec_xor, UInt32.toBitVec_xor] at hRotate
      refine Eq.trans ?_ hRotate
      simp [Array.getD, nextWord]

/-- The 80 words. -/
theorem wordSequence_sequence (block : Block) :
    (wordSequence block).size = 80 ∧ Sequence block (wordSequence block) := by
  have hPushed : ∀ count,
      ((List.range count).foldl (fun w _ => w.push (nextWord w)) (Array.ofFn (blockWord block))).size = 16 + count ∧
      Sequence block
        ((List.range count).foldl (fun w _ => w.push (nextWord w)) (Array.ofFn (blockWord block))) := by
    intro count
    induction count with
    | zero => exact ⟨by simp, sequence_block block⟩
    | succ count ih =>
        rw [List.range_succ, List.foldl_append]
        refine ⟨?_, ih.2.next⟩
        rw [List.foldl_cons, List.foldl_nil, Array.size_push, ih.1]
        omega
  exact hPushed 64

/-! ### The steps -/

def Registers.words (r : Registers) : Reference.Words :=
  ⟨r.a.toBitVec, r.b.toBitVec, r.c.toBitVec, r.d.toBitVec, r.e.toBitVec⟩

/-- One iteration of the four loops is one step. -/
theorem round_words (block : Block) (r : Registers) {t : Nat} (ht : t < 80) :
    (round (wordSequence block) r t).words = Reference.step block r.words t := by
  obtain ⟨hSize, hSequence⟩ := wordSequence_sequence block
  have hWord := hSequence.words t (by omega)
  have hRotate5 : (circularShift 5 r.a).toBitVec = r.a.toBitVec.rotateLeft 5 :=
    toBitVec_circularShift r.a (by decide) (by decide)
  have hRotate30 : (circularShift 30 r.b).toBitVec = r.b.toBitVec.rotateLeft 30 :=
    toBitVec_circularShift r.b (by decide) (by decide)
  simp only [round, Registers.words, Reference.step, Reference.f, Reference.k, hRotate30, Reference.Words.mk.injEq,
    and_true]
  split_ifs <;>
    simp only [UInt32.toBitVec_add, UInt32.toBitVec_or, UInt32.toBitVec_and, UInt32.toBitVec_xor, UInt32.toBitVec_not,
      hRotate5, hWord] <;> rfl

/-- The rounds are the steps of the RFC, by induction on their number. -/
theorem rounds_words (block : Block) (r : Registers) {count : Nat} (h : count ≤ 80) :
    ((List.range count).foldl (round (wordSequence block)) r).words =
      (List.range count).foldl (Reference.step block) r.words := by
  induction count with
  | zero => rfl
  | succ count ih =>
      rw [List.range_succ, List.foldl_append, List.foldl_append, ← ih (by omega)]
      exact round_words block _ h

/-- The hash as five words. -/
def hashWords (hash : Vector UInt32 5) : Reference.Words :=
  ⟨(hash.get 0).toBitVec, (hash.get 1).toBitVec, (hash.get 2).toBitVec, (hash.get 3).toBitVec, (hash.get 4).toBitVec⟩

/-- One block is compressed as in the RFC. -/
theorem compress_words (hash : Vector UInt32 5) (block : Block) :
    hashWords (compress hash block) = Reference.compress (hashWords hash) block := by
  have hRounds := rounds_words block ⟨hash.get 0, hash.get 1, hash.get 2, hash.get 3, hash.get 4⟩ (Nat.le_refl 80)
  rw [Reference.compress]
  rw [show hashWords hash = Registers.words ⟨hash.get 0, hash.get 1, hash.get 2, hash.get 3, hash.get 4⟩ from rfl,
    ← hRounds]
  rfl

/-- All blocks are compressed as in the RFC. -/
theorem foldl_compress_words (hash : Vector UInt32 5) (blocks : List Block) :
    hashWords (blocks.foldl compress hash) = blocks.foldl Reference.compress (hashWords hash) := by
  induction blocks generalizing hash with
  | nil => rfl
  | cons block blocks ih => rw [List.foldl_cons, List.foldl_cons, ih, compress_words]

/-! ### The digest -/

/-- The octets of a word, the highest one first. -/
theorem bigEndian_toNat (word : UInt32) : bigEndian 4 word.toNat =
    [(word >>> 24).toUInt8, (word >>> 16).toUInt8, (word >>> 8).toUInt8, (word >>> 0).toUInt8] := by
  simp only [toUInt8_shiftRight _ 24 (by decide), toUInt8_shiftRight _ 16 (by decide),
    toUInt8_shiftRight _ 8 (by decide), toUInt8_shiftRight _ 0 (by decide)]
  rfl

/-- The digest is the five words, the highest octet first. -/
theorem output_words (hash : Vector UInt32 5) : output hash =
    bigEndian 4 (hash.get 0).toNat ++ bigEndian 4 (hash.get 1).toNat ++ bigEndian 4 (hash.get 2).toNat ++
      bigEndian 4 (hash.get 3).toNat ++ bigEndian 4 (hash.get 4).toNat := by
  simp only [bigEndian_toNat]
  rfl

/-- SHA-1 of a message as RFC 3174 has it, whatever is in the block to begin with. -/
structure IsRfc3174 (message : Bytes) : Prop where
  pads : ∃ zeros, IsLeast {k | 64 ∣ message.length + 1 + 8 + k} zeros ∧
    paddedMessage message = message ++ 0x80 :: (List.replicate zeros 0 ++ bigEndian 8 (8 * message.length))
  digests : ∃ blocks : List Block, content blocks = paddedMessage message ∧
    ∀ messageBlock, digest messageBlock message = some (.ok (Reference.digest blocks))

/-- Below 2^32 octets the digest is the one of the RFC. -/
theorem isRfc3174_of_lt (message : Bytes) (h : message.length < 2 ^ 32) : IsRfc3174 message := by
  refine ⟨⟨_, isLeast_filling (by decide) _, ?_⟩, ?_⟩
  · rw [paddedMessage, padded, length_bigEndian]
  · obtain ⟨blocks, hContent, -⟩ := digestBy_eq compression (Vector.replicate 64 0) h
    refine ⟨blocks, hContent, fun messageBlock => ?_⟩
    obtain ⟨others, hOthers, hDigest⟩ := digestBy_eq compression messageBlock h
    have hWords := foldl_compress_words compression.initial blocks
    rw [digest, hDigest, content_injective (by decide) (hOthers.trans hContent.symm)]
    refine congrArg (fun octets => some (Except.ok octets)) ?_
    refine (output_words _).trans ?_
    rw [show hashWords compression.initial = Reference.initial from rfl] at hWords
    rw [Reference.digest, ← hWords]
    rfl

/-- The message of one of the tests. -/
theorem isRfc3174_of_lt_abc : IsRfc3174 [0x61, 0x62, 0x63] := isRfc3174_of_lt [0x61, 0x62, 0x63] (by decide)

example : digest (Vector.replicate 64 0) [0x61, 0x62, 0x63] =
    some (.ok [0xA9, 0x99, 0x3E, 0x36, 0x47, 0x06, 0x81, 0x6A, 0xBA, 0x3E, 0x25, 0x71, 0x78, 0x50, 0xC2, 0x6C, 0x9C,
      0xD0, 0xD8, 0x9D]) := by
  decide +kernel

end ImpactSockets.Sha1
