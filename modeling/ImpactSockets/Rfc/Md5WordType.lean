import ImpactSockets.Rfc.Md5Reference

/-! MD5 where `var` has 64 bits: it computes what it computes on 32 bits. -/
namespace ImpactSockets.Md5

open BlockStream

/-! ### Words -/

/-- Masked words are those of 32 bits. -/
theorem mask32OfUnsignedLong_eq (word : BitVec 64) :
    mask32OfUnsignedLong word = (word.setWidth 32).setWidth 64 := by
  apply BitVec.eq_of_toNat_eq
  rw [mask32OfUnsignedLong, BitVec.toNat_and, BitVec.toNat_setWidth, BitVec.toNat_setWidth, Nat.and_comm,
    show (0xFFFFFFFF : BitVec 64).toNat = 2 ^ 32 - 1 from rfl, Nat.and_two_pow_sub_one_eq_mod]
  omega

/-- The low half of a sign-extended word. -/
theorem setWidth_signExtend (word : BitVec 32) : (word.signExtend 64).setWidth 32 = word := by
  ext i hi
  rw [BitVec.getElem_setWidth, BitVec.getLsbD_signExtend, if_pos hi, BitVec.getLsbD_eq_getElem hi]
  simp only [show i < 64 by omega, decide_true, Bool.true_and]

theorem setWidth_widened (word : BitVec 32) : (word.setWidth 64).setWidth 32 = word := by
  rw [BitVec.setWidth_setWidth_of_le _ (by decide), BitVec.setWidth_eq]

/-- Where the high half is zero a right shift moves nothing into the low half. -/
theorem setWidth_shiftRight (word : BitVec 32) (shift : Nat) :
    (word.setWidth 64 >>> shift).setWidth 32 = word >>> shift := by
  rw [← BitVec.setWidth_ushiftRight (by decide), setWidth_widened]

/-! ### Steps -/

/-- The registers on 64 bits. -/
@[simps]
def Registers.widen (r : Registers 32) : Registers 64 :=
  ⟨r.a.setWidth 64, r.b.setWidth 64, r.c.setWidth 64, r.d.setWidth 64⟩

/-- The function of a round keeps to the lower halves. -/
theorem select_widen (i : Nat) (r : Registers 32) : select mask32OfUnsignedLong i r.widen =
    ((select mask32OfUint32 i r).1.setWidth 64, (select mask32OfUint32 i r).2) := by
  simp only [select, Registers.widen, mask32OfUnsignedLong_eq, mask32OfUint32]
  split_ifs <;> simp

/-- The constants are the same in both widths. -/
theorem constant_widen (i : Nat) : (K 64).getD i 0 = ((K 32).getD i 0).setWidth 64 := by
  rw [show K 64 = (K 32).map (BitVec.setWidth 64) by decide]
  exact List.getD_map (K 32) 0 (BitVec.setWidth 64)

/-- The words of a chunk are right in the low half. The high one is zeros or ones. -/
theorem word_extended (ints : List (BitVec 32)) (j : Nat) :
    ((ints.map (BitVec.signExtend 64)).getD j 0).setWidth 32 = ints.getD j 0 := by
  rw [show (0 : BitVec 64) = BitVec.signExtend 64 (0 : BitVec 32) by decide, List.getD_map, setWidth_signExtend]

/-- One step on wide registers is the step on the narrow ones. -/
theorem step_widen (ints : List (BitVec 32)) (r : Registers 32) (i : Nat) :
    step mask32OfUnsignedLong (ints.map (BitVec.signExtend 64)) r.widen i = (step mask32OfUint32 ints r i).widen := by
  have hSum (f a k m : BitVec 64) : (f + a + k + m).setWidth 32 =
      f.setWidth 32 + a.setWidth 32 + k.setWidth 32 + m.setWidth 32 := by
    simp (disch := decide) only [BitVec.setWidth_add]
  simp only [step, select_widen, constant_widen, mask32OfUnsignedLong_eq, mask32OfUint32, Registers.widen_a,
    Registers.widen_b, Registers.widen_c, Registers.widen_d, hSum, word_extended, setWidth_widened]
  simp (disch := decide) only [Registers.widen, BitVec.setWidth_or, setWidth_shiftRight, BitVec.setWidth_shiftLeft_of_le,
    setWidth_widened, BitVec.setWidth_add]

/-- A chunk on wide registers is the chunk on the narrow ones, as the additions behind it are
masked. -/
theorem processChunk_widen (ints : List (BitVec 32)) (hash : Registers 32) :
    processChunk mask32OfUnsignedLong (ints.map (BitVec.signExtend 64)) hash.widen =
      (processChunk mask32OfUint32 ints hash).widen := by
  have hLoop : (List.range 64).foldl (step mask32OfUnsignedLong (ints.map (BitVec.signExtend 64))) hash.widen =
      ((List.range 64).foldl (step mask32OfUint32 ints) hash).widen :=
    List.foldl_hom Registers.widen (fun r i => step_widen ints r i)
  simp (disch := decide) only [processChunk, hLoop, Registers.widen_a, Registers.widen_b, Registers.widen_c,
    Registers.widen_d, mask32OfUnsignedLong_eq, BitVec.setWidth_add, setWidth_widened]
  rfl

/-- The output takes the lower halves only. -/
theorem output_widen (hash : Registers 32) : output hash.widen = output hash := by
  have hOctet (word : BitVec 32) (shift : Nat) :
      ((0xFF &&& (word.setWidth 64 >>> shift)).setWidth 8 : BitVec 8) = (0xFF &&& (word >>> shift)).setWidth 8 := by
    rw [← BitVec.setWidth_ushiftRight (by decide), show (0xFF : BitVec 64) = (0xFF : BitVec 32).setWidth 64 by decide,
      ← BitVec.setWidth_and, BitVec.setWidth_setWidth_of_le _ (by decide)]
  simp only [output, Registers.widen, List.flatMap_cons, List.flatMap_nil, hOctet]

/-! ### Chunks -/

/-- All chunks together, by induction on their number. -/
theorem processChunks_widen (paddedMessage : Bytes) (count : Nat) :
    processChunks mask32OfUnsignedLong paddedMessage count =
      Registers.widen <$> processChunks mask32OfUint32 paddedMessage count := by
  induction count with
  | zero => rfl
  | succ count ih =>
      have hWords (ints : List (BitVec 32)) : ints.map (BitVec.signExtend 32) = ints := by
        rw [show BitVec.signExtend 32 = id from funext BitVec.signExtend_eq, List.map_id]
      simp only [processChunks] at ih
      simp only [processChunks, List.range_succ, List.foldlM_append, ih, List.foldlM_cons, List.foldlM_nil,
        bind_map_left, map_bind, hWords, processChunk_widen, bind_pure, map_pure]

/-- The two builds process a padded message alike. -/
theorem process_widen (paddedMessage : Bytes) :
    process mask32OfUnsignedLong paddedMessage = process mask32OfUint32 paddedMessage := by
  simp only [process, processChunks_widen, Functor.map_map, output_widen]

/-- The word type makes no difference: the same octets, the same reads, the same faults. On
whole blocks there are 16 octets and no faults. -/
theorem process_wordType (paddedMessage : Bytes) :
    process mask32OfUnsignedLong paddedMessage = process mask32OfUint32 paddedMessage ∧
      (64 ∣ paddedMessage.length → ∃ octets : Bytes, octets.length = 16 ∧
        process mask32OfUnsignedLong paddedMessage [] = some (octets, List.range paddedMessage.length)) := by
  refine ⟨process_widen paddedMessage, fun hWhole => ?_⟩
  obtain ⟨blocks, rfl⟩ := exists_blocks hWhole
  refine ⟨reference blocks, ?_, ?_⟩
  · simp only [reference, List.length_append, length_littleEndian]
  · rw [process_widen, process_reads blocks, List.nil_append]

end ImpactSockets.Md5
