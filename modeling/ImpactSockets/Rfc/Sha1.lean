import ImpactSockets.Utils.AbnfOps

/-! SHA-1, `rfc/sha1.h` and `rfc/sha1.cpp`. Words and counters keep their 32 bits.
An access outside `message_block` or outside the message array is `none`. -/
namespace ImpactSockets.Sha1

/-- `message_block`. -/
abbrev Block : Type := Vector UInt8 64

/-- What `_S_process_message_block` makes of the hash and a block, with the hash to
begin with and how it is written out. -/
structure Compression (Hash : Type) where
  initial : Hash
  compress : Hash → Block → Hash
  output : Hash → Bytes

variable {Hash : Type}

/-- `sha1::context`. -/
structure Context (Hash : Type) where
  intermediateHash : Hash
  lengthLow : UInt32
  lengthHigh : UInt32
  messageBlockIndex : Nat
  messageBlock : Block
  computed : Bool
  corrupted : Bool

/-- `sha1::STATUS`. -/
inductive Status where
  | success
  | nil
  | inputTooLong
  | stateError
deriving DecidableEq, Repr

/-- `_S_reset`, which leaves the block as it finds it. -/
def reset (alg : Compression Hash) (messageBlock : Block) : Context Hash where
  intermediateHash := alg.initial
  lengthLow := 0
  lengthHigh := 0
  messageBlockIndex := 0
  messageBlock := messageBlock
  computed := false
  corrupted := false

/-- `message_block[message_block_index++] = byte`. -/
def putByte (byte : UInt8) (ctx : Context Hash) : Option (Context Hash) :=
  if h : ctx.messageBlockIndex < 64 then
    some { ctx with
      messageBlock := ctx.messageBlock.set ctx.messageBlockIndex byte h
      messageBlockIndex := ctx.messageBlockIndex + 1 }
  else none

/-- `_S_process_message_block`. -/
def processMessageBlock (alg : Compression Hash) (ctx : Context Hash) : Context Hash :=
  { ctx with
    intermediateHash := alg.compress ctx.intermediateHash ctx.messageBlock
    messageBlockIndex := 0 }

/-- The counters in the loop of `_S_input`. -/
def countByte (ctx : Context Hash) : Context Hash :=
  let ctx := { ctx with lengthLow := ctx.lengthLow + 8 }
  if ctx.lengthLow = 0 then
    let ctx := { ctx with lengthHigh := ctx.lengthHigh + 1 }
    if ctx.lengthHigh = 0 then { ctx with corrupted := true } else ctx
  else ctx

/-- The body of the loop in `_S_input`. -/
def inputByte (alg : Compression Hash) (byte : UInt8) (ctx : Context Hash) : Option (Context Hash) :=
  match putByte byte ctx with
  | none => none
  | some ctx =>
      let ctx := countByte ctx
      some (if ctx.messageBlockIndex = 64 then processMessageBlock alg ctx else ctx)

/-- The loop in `_S_input`, with what is left of the length. -/
def inputLoop (alg : Compression Hash) : Nat → Bytes → Context Hash → Option (Context Hash)
  | 0, _, ctx => some ctx
  | length + 1, messageArray, ctx =>
      if ctx.corrupted then some ctx
      else
        match messageArray with
        | [] => none
        | byte :: rest =>
            match inputByte alg byte ctx with
            | none => none
            | some ctx => inputLoop alg length rest ctx

/-- `_S_input`. -/
def input (alg : Compression Hash) (ctx : Context Hash) (messageArray : Bytes) (length : UInt32) :
    Option (Status × Context Hash) :=
  if length = 0 then some (.success, ctx)
  else if ctx.corrupted then some (.nil, ctx)
  else if ctx.computed then some (.stateError, { ctx with corrupted := true })
  else (inputLoop alg length.toNat messageArray ctx).map fun ctx => (.success, ctx)

/-- `while (message_block_index < limit) message_block[message_block_index++] = 0;` -/
def zeroFill (limit : Nat) (ctx : Context Hash) : Option (Context Hash) :=
  (List.replicate (limit - ctx.messageBlockIndex) 0).foldlM (fun ctx byte => putByte byte ctx) ctx

/-- The loop of `_S_pad_message` that stores the length in the last 8 octets. -/
def storeLength (ctx : Context Hash) : Context Hash :=
  { ctx with
    messageBlock := (List.finRange 4).foldl (fun (block : Block) (i : Fin 4) =>
      let j : UInt32 := 24 - 8 * UInt32.ofNat i.val
      (block.set (56 + i.val) (ctx.lengthHigh >>> j).toUInt8 (by omega)).set (60 + i.val)
        (ctx.lengthLow >>> j).toUInt8 (by omega)) ctx.messageBlock }

/-- `_S_pad_message`. -/
def padMessage (alg : Compression Hash) (ctx : Context Hash) : Option (Context Hash) :=
  (if 55 < ctx.messageBlockIndex then do
    let ctx ← putByte 0x80 ctx
    let ctx ← zeroFill 64 ctx
    zeroFill 56 (processMessageBlock alg ctx)
  else do
    let ctx ← putByte 0x80 ctx
    zeroFill 56 ctx).map fun ctx => processMessageBlock alg (storeLength ctx)

/-- `_S_result`, with the digest that it writes. -/
def result (alg : Compression Hash) (ctx : Context Hash) : Option (Status × Bytes × Context Hash) :=
  if ctx.corrupted then some (.nil, [], ctx)
  else
    (if ctx.computed then some ctx
    else (padMessage alg ctx).map fun ctx =>
      { ctx with messageBlock := Vector.replicate 64 0, lengthLow := 0, lengthHigh := 0, computed := true }).map
      fun ctx => (.success, alg.output ctx.intermediateHash, ctx)

/-- What `digest` throws for a status. -/
def check (status : Status) : Except String Unit :=
  match status with
  | .nil | .stateError => .error "internal error"
  | .inputTooLong => .error "input too long"
  | .success => .ok ()

/-- `digest` up to `_S_result`: the context that is to be padded. The size is converted
to an `unsigned int`. -/
def absorb (alg : Compression Hash) (messageBlock : Block) (message : Bytes) : Option (Except String (Context Hash)) :=
  (input alg (reset alg messageBlock) message (UInt32.ofNat message.length)).map fun answer =>
    (check answer.1).map fun _ => answer.2

/-- `digest`, where `messageBlock` is what is in the block before the first write. -/
def digestBy (alg : Compression Hash) (messageBlock : Block) (message : Bytes) : Option (Except String Bytes) :=
  match absorb alg messageBlock message with
  | none => none
  | some (.error what) => some (.error what)
  | some (.ok ctx) => (result alg ctx).map fun answer => (check answer.1).map fun _ => answer.2.1

/-! ### The compression function -/

/-- `circular_shift`. -/
def circularShift (bits word : UInt32) : UInt32 := (word <<< bits) ||| (word >>> (32 - bits))

/-- `K`. -/
def constants : Vector UInt32 4 := #v[0x5A827999, 0x6ED9EBA1, 0x8F1BBCDC, 0xCA62C1D6]

/-- One of the first 16 words of `W`. -/
def blockWord (block : Block) (t : Fin 16) : UInt32 :=
  (block[t.val * 4].toUInt32 <<< 24) ||| (block[t.val * 4 + 1].toUInt32 <<< 16) |||
    (block[t.val * 4 + 2].toUInt32 <<< 8) ||| block[t.val * 4 + 3].toUInt32

/-- The next word of `W`, from the words so far. -/
def nextWord (w : Array UInt32) : UInt32 :=
  let t := w.size
  circularShift 1 (w.getD (t - 3) 0 ^^^ w.getD (t - 8) 0 ^^^ w.getD (t - 14) 0 ^^^ w.getD (t - 16) 0)

/-- `W`. -/
def wordSequence (block : Block) : Array UInt32 :=
  (List.range 64).foldl (fun w _ => w.push (nextWord w)) (Array.ofFn (blockWord block))

/-- The word buffers `A` to `E`. -/
structure Registers where
  a : UInt32
  b : UInt32
  c : UInt32
  d : UInt32
  e : UInt32
deriving DecidableEq, Repr

/-- The body of the four loops over the word buffers. -/
def round (w : Array UInt32) (r : Registers) (t : Nat) : Registers :=
  let temp :=
    if t < 20 then circularShift 5 r.a + ((r.b &&& r.c) ||| (~~~r.b &&& r.d)) + r.e + w.getD t 0 + constants[0]
    else if t < 40 then circularShift 5 r.a + (r.b ^^^ r.c ^^^ r.d) + r.e + w.getD t 0 + constants[1]
    else if t < 60 then
      circularShift 5 r.a + ((r.b &&& r.c) ||| (r.b &&& r.d) ||| (r.c &&& r.d)) + r.e + w.getD t 0 + constants[2]
    else circularShift 5 r.a + (r.b ^^^ r.c ^^^ r.d) + r.e + w.getD t 0 + constants[3]
  ⟨temp, r.a, circularShift 30 r.b, r.c, r.d⟩

/-- `_S_process_message_block`, on `intermediate_hash`. -/
def compress (hash : Vector UInt32 5) (block : Block) : Vector UInt32 5 :=
  let w := wordSequence block
  let r := (List.range 80).foldl (round w) ⟨hash[0], hash[1], hash[2], hash[3], hash[4]⟩
  #v[hash[0] + r.a, hash[1] + r.b, hash[2] + r.c, hash[3] + r.d, hash[4] + r.e]

/-- `HASH_SIZE`. -/
def hashSize : Nat := 20

/-- The loop of `_S_result` that writes the digest. -/
def output (hash : Vector UInt32 5) : Bytes :=
  List.ofFn fun i : Fin hashSize =>
    (hash.get ⟨i.val / 4, Nat.div_lt_of_lt_mul i.isLt⟩ >>> (8 * (3 - (UInt32.ofNat i.val &&& 0x03)))).toUInt8

/-- The compression of SHA-1. -/
def compression : Compression (Vector UInt32 5) where
  initial := #v[0x67452301, 0xEFCDAB89, 0x98BADCFE, 0x10325476, 0xC3D2E1F0]
  compress := compress
  output := output

/-- `sha1::digest`. -/
def digest (messageBlock : Block) (message : Bytes) : Option (Except String Bytes) :=
  digestBy compression messageBlock message

end ImpactSockets.Sha1
