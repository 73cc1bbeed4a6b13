import ImpactSockets.Library.BlockStream
import ImpactSockets.Library.Registers
import ImpactSockets.Rfc.Sha1

/-! SHA-1 as it streams: which blocks the compression function is given, and that
the cuts of the input do not matter. -/
namespace ImpactSockets.Sha1

open BlockStream

variable {Hash : Type} {alg : Compression Hash}

/-! ### Writes to the block -/

/-- Bytes have been put behind those that are in the block, and nothing else has changed. -/
structure Put (bytes : Bytes) (ctx next : Context Hash) : Prop where
  index : next.messageBlockIndex = ctx.messageBlockIndex + bytes.length
  live : next.messageBlock.toList.take next.messageBlockIndex =
    ctx.messageBlock.toList.take ctx.messageBlockIndex ++ bytes
  hash : next.intermediateHash = ctx.intermediateHash
  counters : next.lengthLow = ctx.lengthLow ∧ next.lengthHigh = ctx.lengthHigh
  flags : next.computed = ctx.computed ∧ next.corrupted = ctx.corrupted

/-- Two runs of octets put in sequence. -/
theorem Put.trans {first second : Bytes} {ctx middle next : Context Hash} (left : Put first ctx middle)
    (right : Put second middle next) : Put (first ++ second) ctx next where
  index := by rw [right.index, left.index, List.length_append, Nat.add_assoc]
  live := by rw [right.live, left.live, List.append_assoc]
  hash := right.hash.trans left.hash
  counters := ⟨right.counters.1.trans left.counters.1, right.counters.2.trans left.counters.2⟩
  flags := ⟨right.flags.1.trans left.flags.1, right.flags.2.trans left.flags.2⟩

/-- One octet is put where the index says. -/
theorem putByte_put (byte : UInt8) {ctx : Context Hash} (h : ctx.messageBlockIndex < 64) :
    ∃ next, putByte byte ctx = some next ∧ Put [byte] ctx next := by
  refine ⟨_, dif_pos h, rfl, ?_, rfl, ⟨rfl, rfl⟩, rfl, rfl⟩
  have hLength : ctx.messageBlockIndex < ctx.messageBlock.toList.length := by simpa using h
  simp only [Vector.toList_set]
  rw [List.take_add_one, List.take_set_of_le (Nat.le_refl _), List.getElem?_set_self hLength]
  rfl

/-- Octets that fit are put one behind the other. -/
theorem foldlM_putByte (bytes : Bytes) {ctx : Context Hash} (h : ctx.messageBlockIndex + bytes.length ≤ 64) :
    ∃ next, bytes.foldlM (fun ctx byte => putByte byte ctx) ctx = some next ∧ Put bytes ctx next := by
  induction bytes generalizing ctx with
  | nil => exact ⟨ctx, rfl, rfl, (List.append_nil _).symm, rfl, ⟨rfl, rfl⟩, rfl, rfl⟩
  | cons byte bytes ih =>
      rw [List.length_cons] at h
      obtain ⟨middle, hByte, hPut⟩ := putByte_put byte (show ctx.messageBlockIndex < 64 by omega)
      have hIndex : middle.messageBlockIndex = ctx.messageBlockIndex + 1 := hPut.index
      obtain ⟨next, hBytes, hRest⟩ := @ih middle (by omega)
      refine ⟨next, ?_, hPut.trans hRest⟩
      rw [List.foldlM_cons, hByte]
      exact hBytes

/-- The zeros go up to the limit. -/
theorem zeroFill_put {limit : Nat} {ctx : Context Hash} (h : ctx.messageBlockIndex ≤ limit) (hLimit : limit ≤ 64) :
    ∃ next, zeroFill limit ctx = some next ∧ Put (List.replicate (limit - ctx.messageBlockIndex) 0) ctx next ∧
      next.messageBlockIndex = limit := by
  obtain ⟨next, hFill, hPut⟩ := foldlM_putByte (List.replicate (limit - ctx.messageBlockIndex) 0)
    (show ctx.messageBlockIndex + _ ≤ 64 by rw [List.length_replicate]; omega)
  refine ⟨next, hFill, hPut, ?_⟩
  rw [hPut.index, List.length_replicate]
  omega

/-! ### Input -/

/-- The context holds a message: some blocks of it have been compressed, and the rest
is in the block. -/
structure Holds (alg : Compression Hash) (blocks : List Block) (message : Bytes) (ctx : Context Hash) : Prop where
  hash : ctx.intermediateHash = blocks.foldl alg.compress alg.initial
  content : content blocks ++ ctx.messageBlock.toList.take ctx.messageBlockIndex = message

/-- A message has been taken as input, and its bits have been counted. -/
structure Absorbed (alg : Compression Hash) (blocks : List Block) (message : Bytes) (ctx : Context Hash) : Prop
    extends Holds alg blocks message ctx where
  index : ctx.messageBlockIndex = message.length % 64
  counter : ctx.lengthHigh.toNat * 2 ^ 32 + ctx.lengthLow.toNat = 8 * message.length
  flags : ctx.computed = false ∧ ctx.corrupted = false

/-- The octets that are put belong to the message, while the block is not full. -/
theorem Holds.put {blocks : List Block} {message bytes : Bytes} {ctx next : Context Hash}
    (holds : Holds alg blocks message ctx) (put : Put bytes ctx next) : Holds alg blocks (message ++ bytes) next where
  hash := put.hash.trans holds.hash
  content := by rw [put.live, ← List.append_assoc, holds.content]

/-- A full block goes to the compression function. -/
theorem Holds.process {blocks : List Block} {message : Bytes} {ctx : Context Hash}
    (holds : Holds alg blocks message ctx) (hFull : ctx.messageBlockIndex = 64) :
    Holds alg (blocks ++ [ctx.messageBlock]) message (processMessageBlock alg ctx) where
  hash := by
    rw [List.foldl_append, ← holds.hash]
    rfl
  content := by
    have hBlock : ctx.messageBlock.toList.take 64 = ctx.messageBlock.toList := List.take_of_length_le (by simp)
    have hContent := holds.content
    rw [hFull, hBlock] at hContent
    rw [content_concat, hContent]
    exact List.append_nil _

/-- A context after the reset has absorbed nothing. -/
theorem reset_absorbed (alg : Compression Hash) (messageBlock : Block) :
    Absorbed alg [] [] (reset alg messageBlock) := by
  refine ⟨⟨rfl, ?_⟩, rfl, ?_, rfl, rfl⟩
  · simp [reset]
  · simp [reset]

/-- Adding a byte to a count of bits in two halves. The low half is a multiple of 8, so
that it overflows to 0 or not at all. -/
theorem carry {high low count : Nat} (hLow : low < 2 ^ 32) (h : high * 2 ^ 32 + low = 8 * count)
    (hRoom : 8 * (count + 1) < 2 ^ 64) :
    ((low + 8) % 2 ^ 32 = 0 → (high + 1) % 2 ^ 32 ≠ 0 ∧ (high + 1) % 2 ^ 32 * 2 ^ 32 = 8 * (count + 1)) ∧
      ((low + 8) % 2 ^ 32 ≠ 0 → high * 2 ^ 32 + (low + 8) % 2 ^ 32 = 8 * (count + 1)) := by
  omega

/-- The counters do not overflow below 2^64 bits. -/
theorem countByte_counter {ctx : Context Hash} {count : Nat}
    (h : ctx.lengthHigh.toNat * 2 ^ 32 + ctx.lengthLow.toNat = 8 * count) (hRoom : 8 * (count + 1) < 2 ^ 64) :
    (countByte ctx).lengthHigh.toNat * 2 ^ 32 + (countByte ctx).lengthLow.toNat = 8 * (count + 1) ∧
      (countByte ctx).corrupted = ctx.corrupted := by
  obtain ⟨hOverflow, hAdd⟩ := carry ctx.lengthLow.toNat_lt h hRoom
  have hLow : (ctx.lengthLow + 8).toNat = (ctx.lengthLow.toNat + 8) % 2 ^ 32 := UInt32.toNat_add ..
  have hHigh : (ctx.lengthHigh + 1).toNat = (ctx.lengthHigh.toNat + 1) % 2 ^ 32 := UInt32.toNat_add ..
  rw [← hLow, ← hHigh] at hOverflow
  rw [← hLow] at hAdd
  have hZeroIff (word : UInt32) : word = 0 ↔ word.toNat = 0 := by rw [← UInt32.toNat_inj, UInt32.toNat_zero]
  unfold countByte
  dsimp only
  by_cases hZero : ctx.lengthLow + 8 = 0
  · obtain ⟨hNotZero, hCounter⟩ := hOverflow ((hZeroIff _).mp hZero)
    rw [if_pos hZero, if_neg ((hZeroIff _).not.mpr hNotZero)]
    refine ⟨?_, rfl⟩
    dsimp only
    rw [hZero, UInt32.toNat_zero, Nat.add_zero]
    exact hCounter
  · rw [if_neg hZero]
    exact ⟨hAdd ((hZeroIff _).not.mp hZero), rfl⟩

/-- Counting changes the two length words only. -/
theorem countByte_frame (ctx : Context Hash) : (countByte ctx).intermediateHash = ctx.intermediateHash ∧
    (countByte ctx).messageBlockIndex = ctx.messageBlockIndex ∧ (countByte ctx).messageBlock = ctx.messageBlock ∧
    (countByte ctx).computed = ctx.computed := by
  unfold countByte
  dsimp only
  split_ifs <;> exact ⟨rfl, rfl, rfl, rfl⟩

/-- One octet is absorbed, and the block is compressed when it is full. -/
theorem inputByte_absorbed {blocks : List Block} {message : Bytes} {ctx : Context Hash}
    (absorbed : Absorbed alg blocks message ctx) (byte : UInt8) (hRoom : 8 * (message.length + 1) < 2 ^ 64) :
    ∃ next blocks, inputByte alg byte ctx = some next ∧ Absorbed alg blocks (message ++ [byte]) next := by
  have hIndex := absorbed.index
  obtain ⟨middle, hPut, put⟩ := putByte_put byte (show ctx.messageBlockIndex < 64 by omega)
  obtain ⟨hHash, hCountIndex, hBlock, hComputed⟩ := countByte_frame middle
  have hCounter := absorbed.counter
  rw [← put.counters.1, ← put.counters.2] at hCounter
  obtain ⟨hCount, hCorrupted⟩ := countByte_counter hCounter hRoom
  have holds : Holds alg blocks (message ++ [byte]) (countByte middle) := by
    have hBefore := absorbed.toHolds.put put
    exact ⟨hHash.trans hBefore.hash, by rw [hCountIndex, hBlock]; exact hBefore.content⟩
  have hFlags : (countByte middle).computed = false ∧ (countByte middle).corrupted = false := by
    rw [hComputed, hCorrupted, put.flags.1, put.flags.2]
    exact absorbed.flags
  have hNext : (countByte middle).messageBlockIndex = message.length % 64 + 1 := by
    rw [hCountIndex, put.index, hIndex]
    rfl
  have hLength : (message ++ [byte]).length = message.length + 1 := by simp
  rw [inputByte, hPut]
  dsimp only
  by_cases hFull : (countByte middle).messageBlockIndex = 64
  · rw [if_pos hFull]
    refine ⟨_, _, rfl, holds.process hFull, ?_, ?_, hFlags⟩
    · rw [hLength, processMessageBlock]
      dsimp only
      omega
    · rw [hLength]
      exact hCount
  · rw [if_neg hFull]
    refine ⟨_, _, rfl, holds, ?_, ?_, hFlags⟩
    · rw [hLength, hNext]
      omega
    · rw [hLength]
      exact hCount

/-- A run of octets is absorbed, by induction on the octets. -/
theorem inputLoop_absorbed (bytes extra : Bytes) {blocks : List Block} {message : Bytes} {ctx : Context Hash}
    (absorbed : Absorbed alg blocks message ctx) (hRoom : 8 * (message.length + bytes.length) < 2 ^ 64) :
    ∃ next blocks, inputLoop alg bytes.length (bytes ++ extra) ctx = some next ∧
      Absorbed alg blocks (message ++ bytes) next := by
  induction bytes generalizing blocks message ctx with
  | nil => exact ⟨ctx, blocks, rfl, by rwa [List.append_nil]⟩
  | cons byte bytes ih =>
      rw [List.length_cons] at hRoom
      obtain ⟨middle, others, hByte, hMiddle⟩ := inputByte_absorbed absorbed byte (by omega)
      obtain ⟨next, blocks, hLoop, hNext⟩ := ih hMiddle (by
        rw [List.length_append, List.length_singleton]
        omega)
      rw [List.append_assoc] at hNext
      refine ⟨next, blocks, ?_, hNext⟩
      rw [List.length_cons, List.cons_append, inputLoop, if_neg (by simp [absorbed.flags.2]), hByte]
      exact hLoop

/-- The loop over two arrays, one behind the other. -/
theorem inputLoop_append (first second : Bytes) (ctx : Context Hash) :
    inputLoop alg (first ++ second).length (first ++ second) ctx =
      (inputLoop alg first.length first ctx).bind fun ctx => inputLoop alg second.length second ctx := by
  induction first generalizing ctx with
  | nil => rfl
  | cons byte first ih =>
      rw [List.cons_append, List.length_cons, List.length_cons, inputLoop, inputLoop]
      by_cases hCorrupted : ctx.corrupted = true
      · rw [if_pos hCorrupted, if_pos hCorrupted, Option.bind_some]
        cases second with
        | nil => rfl
        | cons other second => rw [List.length_cons, inputLoop, if_pos hCorrupted]
      · rw [if_neg hCorrupted, if_neg hCorrupted]
        cases hByte : inputByte alg byte ctx with
        | none => rfl
        | some next => exact ih next

/-! ### Calls -/

/-- A context into which input may still go. -/
theorem input_eq {ctx : Context Hash} (hFlags : ctx.computed = false ∧ ctx.corrupted = false) (messageArray : Bytes)
    (length : UInt32) : input alg ctx messageArray length =
      (inputLoop alg length.toNat messageArray ctx).map fun ctx => (.success, ctx) := by
  rw [input]
  by_cases hZero : length = 0
  · rw [if_pos hZero, hZero]
    rfl
  · rw [if_neg hZero, if_neg (by simp [hFlags.2]), if_neg (by simp [hFlags.1])]

/-- `_S_input` of a whole chunk, and the context that it leaves. -/
def feed (alg : Compression Hash) (ctx : Context Hash) (chunk : Bytes) : Option (Context Hash) :=
  (input alg ctx chunk (UInt32.ofNat chunk.length)).map Prod.snd

/-- A context without flags feeds the whole chunk to the loop. -/
theorem feed_eq {ctx : Context Hash} (hFlags : ctx.computed = false ∧ ctx.corrupted = false) {chunk : Bytes}
    (hLength : chunk.length < 2 ^ 32) : feed alg ctx chunk = inputLoop alg chunk.length chunk ctx := by
  rw [feed, input_eq hFlags, UInt32.toNat_ofNat_of_lt' hLength, Option.map_map]
  exact Option.map_id'

/-- A chunk that is fed is absorbed. -/
theorem feed_absorbed {blocks : List Block} {message chunk : Bytes} {ctx : Context Hash}
    (absorbed : Absorbed alg blocks message ctx) (hLength : message.length + chunk.length < 2 ^ 32) :
    ∃ next blocks, feed alg ctx chunk = some next ∧ Absorbed alg blocks (message ++ chunk) next := by
  rw [feed_eq absorbed.flags (by omega)]
  have hLoop := inputLoop_absorbed chunk [] absorbed (by omega)
  rwa [List.append_nil] at hLoop

/-- Chunks may be fed one by one or all at once. -/
theorem foldlM_feed (chunks : List Bytes) {blocks : List Block} {message : Bytes} {ctx : Context Hash}
    (absorbed : Absorbed alg blocks message ctx) (hLength : message.length + chunks.flatten.length < 2 ^ 32) :
    chunks.foldlM (feed alg) ctx = feed alg ctx chunks.flatten := by
  induction chunks generalizing blocks message ctx with
  | nil =>
      rw [feed_eq absorbed.flags (by omega)]
      rfl
  | cons chunk chunks ih =>
      rw [List.flatten_cons, List.length_append] at hLength
      obtain ⟨next, others, hFeed, hNext⟩ := @feed_absorbed _ _ _ _ chunk _ absorbed (by omega)
      have hRest := ih hNext (by rw [List.length_append]; omega)
      rw [List.foldlM_cons, hFeed]
      refine hRest.trans ?_
      rw [feed_eq absorbed.flags (by omega)] at hFeed
      rw [feed_eq hNext.flags (by omega), List.flatten_cons, feed_eq absorbed.flags (by rw [List.length_append]; omega),
        inputLoop_append, hFeed, Option.bind_some]

/-! ### Padding -/

theorem toUInt8_shiftRight (word shift : UInt32) (h : shift.toNat < 32) :
    (word >>> shift).toUInt8 = UInt8.ofNat (word.toNat / 2 ^ shift.toNat) := by
  rw [← UInt8.toNat_inj, UInt32.toNat_toUInt8, Registers.toNat_shiftRight word shift h, UInt8.toNat_ofNat']

/-- The octets of the two counters are those of the number that they make up. -/
theorem lengthBytes_eq (high low : UInt32) :
    bigEndian 8 (high.toNat * 2 ^ 32 + low.toNat) =
      [(high >>> 24).toUInt8, (high >>> 16).toUInt8, (high >>> 8).toUInt8, (high >>> 0).toUInt8,
        (low >>> 24).toUInt8, (low >>> 16).toUInt8, (low >>> 8).toUInt8, (low >>> 0).toUInt8] := by
  have hLow := low.toNat_lt
  simp only [bigEndian, littleEndian, List.range, List.range.loop, List.map_cons, List.map_nil, List.reverse_cons,
    List.reverse_nil, List.nil_append, List.cons_append]
  simp only [toUInt8_shiftRight _ 24 (by decide), toUInt8_shiftRight _ 16 (by decide),
    toUInt8_shiftRight _ 8 (by decide), toUInt8_shiftRight _ 0 (by decide)]
  simp only [UInt32.reduceToNat, List.cons.injEq, and_true, ← UInt8.toNat_inj, UInt8.toNat_ofNat']
  omega

/-- The length is written with its highest octet first into the last eight places. -/
theorem storeLength_toList (ctx : Context Hash) : (storeLength ctx).messageBlock.toList =
    ctx.messageBlock.toList.take 56 ++ bigEndian 8 (ctx.lengthHigh.toNat * 2 ^ 32 + ctx.lengthLow.toNat) := by
  have hIndices : List.finRange 4 = [0, 1, 2, 3] := rfl
  have hFront : (ctx.messageBlock.toList.take 56).length = 56 := by simp
  obtain ⟨front, hFrontEq⟩ : ∃ front, front = ctx.messageBlock.toList.take 56 := ⟨_, rfl⟩
  obtain ⟨last, hLastEq⟩ : ∃ last, last = ctx.messageBlock.toList.drop 56 := ⟨_, rfl⟩
  have hBlock : ctx.messageBlock.toList = front ++ last := by rw [hFrontEq, hLastEq, List.take_append_drop]
  have hLast : last.length = 8 := by rw [hLastEq]; simp
  rw [← hFrontEq] at hFront ⊢
  rw [lengthBytes_eq]
  simp only [storeLength, hIndices, List.foldl_cons, List.foldl_nil, Vector.toList_set, hBlock]
  have hSet (rest : Bytes) (k : Nat) (byte : UInt8) : (front ++ rest).set (56 + k) byte = front ++ rest.set k byte := by
    rw [List.set_append_right _ _ (by omega), hFront, Nat.add_sub_cancel_left]
  have hSetLow (rest : Bytes) (k : Nat) (byte : UInt8) :
      (front ++ rest).set (60 + k) byte = front ++ rest.set (4 + k) byte := by
    rw [← hSet, ← Nat.add_assoc]
  simp only [hSet, hSetLow]
  refine congrArg (front ++ ·) (List.ext_getElem (by simp [hLast]) fun i _ hi => ?_)
  have hIndex : i = 0 ∨ i = 1 ∨ i = 2 ∨ i = 3 ∨ i = 4 ∨ i = 5 ∨ i = 6 ∨ i = 7 := by
    simp only [List.length_cons, List.length_nil] at hi
    omega
  rcases hIndex with rfl | rfl | rfl | rfl | rfl | rfl | rfl | rfl
  all_goals
    simp only [List.getElem_set, List.getElem_cons_zero, List.getElem_cons_succ]
    rfl

/-- The last block, once 56 of its bytes are there. -/
theorem Holds.last {blocks : List Block} {message : Bytes} {ctx : Context Hash} (holds : Holds alg blocks message ctx)
    (hIndex : ctx.messageBlockIndex = 56) :
    BlockStream.content (blocks ++ [(storeLength ctx).messageBlock]) =
        message ++ bigEndian 8 (ctx.lengthHigh.toNat * 2 ^ 32 + ctx.lengthLow.toNat) ∧
      (processMessageBlock alg (storeLength ctx)).intermediateHash =
        (blocks ++ [(storeLength ctx).messageBlock]).foldl alg.compress alg.initial := by
  constructor
  · rw [content_concat, storeLength_toList, ← List.append_assoc, ← hIndex, holds.content]
  · rw [List.foldl_append, ← holds.hash]
    rfl

/-- The zeros up to the length: in the same block, or in it and the next one. -/
theorem filling_cases (length : Nat) :
    (length % 64 ≤ 55 → filling 64 (length + 1 + 8) = 56 - (length % 64 + 1)) ∧
      (55 < length % 64 → filling 64 (length + 1 + 8) = 64 - (length % 64 + 1) + 56) := by
  simp only [filling]
  omega

/-- A message as it is padded for SHA-1. -/
def paddedMessage (message : Bytes) : Bytes := padded 64 0x80 0 message (bigEndian 8 (8 * message.length))

/-- The padding makes whole blocks of the message, one or two. -/
theorem padMessage_absorbed {blocks : List Block} {message : Bytes} {ctx : Context Hash}
    (absorbed : Absorbed alg blocks message ctx) : ∃ next all, padMessage alg ctx = some next ∧
      content all = paddedMessage message ∧ next.intermediateHash = all.foldl alg.compress alg.initial := by
  have hIndex := absorbed.index
  have hMod := Nat.mod_lt message.length (show 0 < 64 by decide)
  obtain ⟨hShort, hLong⟩ := filling_cases message.length
  obtain ⟨marked, hMark, putMark⟩ := putByte_put 0x80 (show ctx.messageBlockIndex < 64 by omega)
  have hMarkedIndex : marked.messageBlockIndex = message.length % 64 + 1 := by
    rw [putMark.index, hIndex]
    rfl
  have hMarked := absorbed.toHolds.put putMark
  unfold padMessage
  by_cases hRoom : 55 < ctx.messageBlockIndex
  · obtain ⟨full, hFull, putFull, hFullIndex⟩ := zeroFill_put (show marked.messageBlockIndex ≤ 64 by omega)
      (Nat.le_refl 64)
    have hProcessed := (hMarked.put putFull).process hFullIndex
    obtain ⟨filled, hFilled, putFilled, hFilledIndex⟩ := zeroFill_put
      (show (processMessageBlock alg full).messageBlockIndex ≤ 56 from Nat.zero_le 56) (by decide)
    obtain ⟨hContent, hHash⟩ := (hProcessed.put putFilled).last hFilledIndex
    have hLow : filled.lengthLow = ctx.lengthLow :=
      (putFilled.counters.1.trans putFull.counters.1).trans putMark.counters.1
    have hHigh : filled.lengthHigh = ctx.lengthHigh :=
      (putFilled.counters.2.trans putFull.counters.2).trans putMark.counters.2
    rw [hLow, hHigh, absorbed.counter] at hContent
    rw [if_pos hRoom, hMark, Option.bind_eq_bind, Option.bind_some, hFull, Option.bind_some, hFilled, Option.map_some]
    refine ⟨_, _, rfl, hContent.trans ?_, hHash⟩
    rw [paddedMessage, padded, length_bigEndian, hLong (by omega), hMarkedIndex, List.replicate_add]
    simp only [processMessageBlock, List.append_assoc, List.cons_append, List.nil_append, Nat.sub_zero]
  · obtain ⟨filled, hFilled, putFilled, hFilledIndex⟩ := zeroFill_put (show marked.messageBlockIndex ≤ 56 by omega)
      (show 56 ≤ 64 by decide)
    obtain ⟨hContent, hHash⟩ := (hMarked.put putFilled).last hFilledIndex
    rw [putFilled.counters.1, putFilled.counters.2, putMark.counters.1, putMark.counters.2, absorbed.counter] at hContent
    rw [if_neg hRoom, hMark, Option.bind_eq_bind, Option.bind_some, hFilled, Option.map_some]
    refine ⟨_, _, rfl, hContent.trans ?_, hHash⟩
    rw [paddedMessage, padded, length_bigEndian, hShort (by omega), hMarkedIndex]
    simp only [List.append_assoc, List.cons_append, List.nil_append]

/-- The result is that of the compressions over the padded message. -/
theorem result_absorbed {blocks : List Block} {message : Bytes} {ctx : Context Hash}
    (absorbed : Absorbed alg blocks message ctx) : ∃ next all, content all = paddedMessage message ∧
      result alg ctx = some (.success, alg.output (all.foldl alg.compress alg.initial), next) := by
  obtain ⟨padded, all, hPad, hContent, hHash⟩ := padMessage_absorbed absorbed
  refine ⟨{ padded with
    messageBlock := Vector.replicate 64 0, lengthLow := 0, lengthHigh := 0, computed := true }, all, hContent, ?_⟩
  rw [result, if_neg (by simp [absorbed.flags.2]), if_neg (by simp [absorbed.flags.1]), hPad, Option.map_some,
    Option.map_some, ← hHash]

/-! ### Digests -/

/-- The input of `digest`: as many bytes as the low 32 bits of the size say. -/
theorem absorb_eq (alg : Compression Hash) (messageBlock : Block) (message : Bytes) : ∃ ctx blocks,
    absorb alg messageBlock message = some (.ok ctx) ∧
      Absorbed alg blocks (message.take (message.length % 2 ^ 32)) ctx := by
  have hLength : (UInt32.ofNat message.length).toNat = message.length % 2 ^ 32 := UInt32.toNat_ofNat'
  have hMod := Nat.mod_lt message.length (show 0 < 2 ^ 32 by decide)
  have hTake : (message.take (message.length % 2 ^ 32)).length = message.length % 2 ^ 32 := by
    rw [List.length_take]
    exact Nat.min_eq_left (Nat.mod_le _ _)
  have absorbed := reset_absorbed alg messageBlock
  obtain ⟨ctx, blocks, hLoop, hCtx⟩ := inputLoop_absorbed (message.take (message.length % 2 ^ 32))
    (message.drop (message.length % 2 ^ 32)) absorbed (by rw [hTake, List.length_nil]; omega)
  rw [List.take_append_drop, hTake] at hLoop
  refine ⟨ctx, blocks, ?_, hCtx⟩
  rw [absorb, input_eq absorbed.flags, hLength, hLoop]
  rfl

/-- SHA-1 of a message. The blocks are those of the padded message, whatever is done
with them; the index of the block is that of the message, and input may be cut anywhere. -/
structure Streams (message : Bytes) : Prop where
  feeds : ∃ zeros, IsLeast {k | 64 ∣ message.length + 1 + 8 + k} zeros ∧ ∃ blocks : List Block,
    content blocks = message ++ 0x80 :: (List.replicate zeros 0 ++ bigEndian 8 (8 * message.length)) ∧
      ∀ {Hash : Type} (alg : Compression Hash) (messageBlock : Block),
        digestBy alg messageBlock message = some (.ok (alg.output (blocks.foldl alg.compress alg.initial)))
  index : ∀ {Hash : Type} (alg : Compression Hash) (messageBlock : Block) (before : Bytes), before <+: message →
    ∃ ctx, feed alg (reset alg messageBlock) before = some ctx ∧ ctx.messageBlockIndex = before.length % 64
  chunks : ∀ {Hash : Type} (alg : Compression Hash) (messageBlock : Block) (chunks : List Bytes),
    chunks.flatten = message →
      chunks.foldlM (feed alg) (reset alg messageBlock) = feed alg (reset alg messageBlock) message

/-- The digest of a whole message, for every compression function. -/
theorem digestBy_eq (alg : Compression Hash) (messageBlock : Block) {message : Bytes} (h : message.length < 2 ^ 32) :
    ∃ blocks : List Block, content blocks = paddedMessage message ∧
      digestBy alg messageBlock message = some (.ok (alg.output (blocks.foldl alg.compress alg.initial))) := by
  obtain ⟨ctx, before, hAbsorb, absorbed⟩ := absorb_eq alg messageBlock message
  rw [Nat.mod_eq_of_lt h, List.take_length] at absorbed
  obtain ⟨next, blocks, hContent, hResult⟩ := result_absorbed absorbed
  refine ⟨blocks, hContent, ?_⟩
  rw [digestBy, hAbsorb]
  dsimp only
  rw [hResult]
  rfl

/-- Below 2^32 octets the digest is that of the padded message. -/
theorem streams_of_lt (message : Bytes) (h : message.length < 2 ^ 32) : Streams message := by
  refine ⟨⟨_, isLeast_filling (by decide) _, ?_⟩, ?_, ?_⟩
  · obtain ⟨blocks, hContent⟩ := @exists_blocks _ 64 (paddedMessage message) (dvd_length_padded (by decide) _ _ _ _)
    refine ⟨blocks, hContent.trans ?_, fun {Hash} alg messageBlock => ?_⟩
    · rw [paddedMessage, padded, length_bigEndian]
    · obtain ⟨others, hOthers, hDigest⟩ := digestBy_eq alg messageBlock h
      rw [hDigest, content_injective (by decide) (hOthers.trans hContent.symm)]
  · intro Hash alg messageBlock before hPrefix
    obtain ⟨ctx, blocks, hFeed, absorbed⟩ := @feed_absorbed _ _ _ _ before _ (reset_absorbed alg messageBlock) (by
      have hLength := hPrefix.length_le
      rw [List.length_nil]
      omega)
    exact ⟨ctx, hFeed, absorbed.index⟩
  · rintro Hash alg messageBlock chunks rfl
    exact foldlM_feed chunks (reset_absorbed alg messageBlock) (by rw [List.length_nil]; omega)

/-- The message of one of the tests. -/
theorem streams_of_lt_abc : Streams [0x61, 0x62, 0x63] := streams_of_lt [0x61, 0x62, 0x63] (by decide)

/-! ### Long messages -/

/-- All bits of the message are counted at the time of padding, unless `digest` throws. -/
def CountsAll (messageBlock : Block) (message : Bytes) : Prop :=
  ∀ ctx, absorb compression messageBlock message = some (.ok ctx) →
    ctx.lengthHigh.toNat * 2 ^ 32 + ctx.lengthLow.toNat = 8 * message.length

/-- The counter holds the length that `digest` could pass on, in bits. -/
theorem absorb_counter (messageBlock : Block) (message : Bytes) : ∃ ctx,
    absorb compression messageBlock message = some (.ok ctx) ∧
      ctx.lengthHigh.toNat * 2 ^ 32 + ctx.lengthLow.toNat = 8 * (message.length % 2 ^ 32) := by
  obtain ⟨ctx, blocks, hAbsorb, absorbed⟩ := absorb_eq compression messageBlock message
  refine ⟨ctx, hAbsorb, absorbed.counter.trans ?_⟩
  rw [List.length_take, Nat.min_eq_left (Nat.mod_le _ _)]

/-- What does not fit into the 32 bits of the length is ignored. -/
theorem countsAll_iff (messageBlock : Block) (message : Bytes) :
    CountsAll messageBlock message ↔ message.length < 2 ^ 32 := by
  obtain ⟨ctx, hAbsorb, hCounter⟩ := absorb_counter messageBlock message
  constructor
  · intro hCounts
    have hAll := hCounts ctx hAbsorb
    omega
  · intro h other hOther
    rw [hAbsorb] at hOther
    cases hOther
    rw [hCounter, Nat.mod_eq_of_lt h]

/-- Of 4 GiB nothing is hashed. -/
theorem fourGiB_not_counted : (List.replicate (2 ^ 32) (0 : UInt8)).length < 2 ^ 61 ∧
    ¬CountsAll (Vector.replicate 64 0) (List.replicate (2 ^ 32) 0) := by
  obtain ⟨ctx, hAbsorb, hCounter⟩ := absorb_counter (Vector.replicate 64 0) (List.replicate (2 ^ 32) 0)
  rw [List.length_replicate, Nat.mod_self] at hCounter
  refine ⟨by rw [List.length_replicate]; decide, fun hCounts => ?_⟩
  have hAll := hCounts ctx hAbsorb
  rw [hCounter, List.length_replicate] at hAll
  exact absurd hAll (by decide)

end ImpactSockets.Sha1
