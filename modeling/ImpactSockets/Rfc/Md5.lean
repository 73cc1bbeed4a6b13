import ImpactSockets.Utils.AbnfOps

/-! MD5, `rfc/md5.h` and `rfc/md5.cpp`, for any width of `var` and any `MASK32`. The
`size_t` has 64 bits and an `int` 32. A read behind the terminator is `none`. -/
namespace ImpactSockets.Md5

variable {w : Nat}

/-- `s`. -/
def s : List Nat :=
  [7, 12, 17, 22, 7, 12, 17, 22, 7, 12, 17, 22, 7, 12, 17, 22,
    5, 9, 14, 20, 5, 9, 14, 20, 5, 9, 14, 20, 5, 9, 14, 20,
    4, 11, 16, 23, 4, 11, 16, 23, 4, 11, 16, 23, 4, 11, 16, 23,
    6, 10, 15, 21, 6, 10, 15, 21, 6, 10, 15, 21, 6, 10, 15, 21]

/-- `K`. -/
def K (w : Nat) : List (BitVec w) :=
  [0xd76aa478, 0xe8c7b756, 0x242070db, 0xc1bdceee,
    0xf57c0faf, 0x4787c62a, 0xa8304613, 0xfd469501,
    0x698098d8, 0x8b44f7af, 0xffff5bb1, 0x895cd7be,
    0x6b901122, 0xfd987193, 0xa679438e, 0x49b40821,
    0xf61e2562, 0xc040b340, 0x265e5a51, 0xe9b6c7aa,
    0xd62f105d, 0x02441453, 0xd8a1e681, 0xe7d3fbc8,
    0x21e1cde6, 0xc33707d6, 0xf4d50d87, 0x455a14ed,
    0xa9e3e905, 0xfcefa3f8, 0x676f02d9, 0x8d2a4c8a,
    0xfffa3942, 0x8771f681, 0x6d9d6122, 0xfde5380c,
    0xa4beea44, 0x4bdecfa9, 0xf6bb4b60, 0xbebfbc70,
    0x289b7ec6, 0xeaa127fa, 0xd4ef3085, 0x04881d05,
    0xd9d4d039, 0xe6db99e5, 0x1fa27cf8, 0xc4ac5665,
    0xf4292244, 0x432aff97, 0xab9423a7, 0xfc93a039,
    0x655b59c3, 0x8f0ccc92, 0xffeff47d, 0x85845dd1,
    0x6fa87e4f, 0xfe2ce6e0, 0xa3014314, 0x4e0811a1,
    0xf7537e82, 0xbd3af235, 0x2ad7d2bb, 0xeb86d391].map (BitVec.ofNat w)

/-- `MASK32` where `var` is a `uint32_t`. -/
def mask32OfUint32 (word : BitVec 32) : BitVec 32 := word

/-- `MASK32` where `var` is an `unsigned long int`. -/
def mask32OfUnsignedLong (word : BitVec 64) : BitVec 64 := 0xFFFFFFFF &&& word

/-! ### Padding -/

/-- `_S_preprocess`. -/
def preprocess (message : Bytes) : Bytes :=
  let originalSize := UInt64.ofNat message.length
  let modulo1 := (originalSize + 1) % 64
  let zeroPadLength := if modulo1 ≤ 56 then 56 - modulo1 else 120 - modulo1
  let paddedMessage := message ++ [0x80] ++ List.replicate (zeroPadLength + 8).toNat 0
  let originalSize := originalSize <<< 3
  let trailer := paddedMessage.length - 8
  (List.range 8).foldl
    (fun padded i => padded.set (trailer + i) (0xFF &&& (originalSize >>> (8 * UInt64.ofNat i))).toUInt8) paddedMessage

/-! ### Chunks -/

/-- Code that reads the message. The indices that it has read are kept. -/
abbrev Reading : Type → Type := StateT (List Nat) Option

/-- `__padded_message[index]`. -/
def fetch (message : Bytes) (index : Nat) : Reading UInt8 := fun reads =>
  ((message ++ [0])[index]?).map fun octet => (octet, reads ++ [index])

/-- `MASK8` on an element of the message. -/
def mask8 (octet : UInt8) : BitVec 32 := octet.toBitVec.setWidth 32

/-- Four octets as an `int`. -/
def assemble (octet0 octet1 octet2 octet3 : UInt8) : BitVec 32 :=
  (mask8 octet0 <<< 0) ||| (mask8 octet1 <<< 8) ||| (mask8 octet2 <<< 16) ||| (mask8 octet3 <<< 24)

/-- What is assigned to `M[j]`. -/
def word (message : Bytes) (chunkIndex j : Nat) : Reading (BitVec 32) := do
  let octet0 ← fetch message (chunkIndex + j * 4 + 0)
  let octet1 ← fetch message (chunkIndex + j * 4 + 1)
  let octet2 ← fetch message (chunkIndex + j * 4 + 2)
  let octet3 ← fetch message (chunkIndex + j * 4 + 3)
  return assemble octet0 octet1 octet2 octet3

/-- `M`, before the conversion of its words to `var`. -/
def words (message : Bytes) (chunkIndex : Nat) : Reading (List (BitVec 32)) :=
  (List.range 16).mapM (word message chunkIndex)

/-- `A`, `B`, `C`, `D`, and `a0`, `b0`, `c0`, `d0`. -/
structure Registers (w : Nat) where
  a : BitVec w
  b : BitVec w
  c : BitVec w
  d : BitVec w
deriving DecidableEq

/-- The first values of `a0`, `b0`, `c0`, `d0`. -/
def initial (w : Nat) : Registers w :=
  ⟨BitVec.ofNat w 0x67452301, BitVec.ofNat w 0xefcdab89, BitVec.ofNat w 0x98badcfe, BitVec.ofNat w 0x10325476⟩

section

variable (mask32 : BitVec w → BitVec w)

/-- `F` and `j`. -/
def select (i : Nat) (r : Registers w) : BitVec w × Nat :=
  if (0 = i ∨ 0 < i) ∧ i ≤ 15 then (mask32 ((r.b &&& r.c) ||| (mask32 (~~~r.b) &&& r.d)), i)
  else if 16 ≤ i ∧ i ≤ 31 then (mask32 ((r.b &&& r.d) ||| (r.c &&& mask32 (~~~r.d))), (5 * i + 1) % 16)
  else if 32 ≤ i ∧ i ≤ 47 then (mask32 (r.b ^^^ r.c ^^^ r.d), (3 * i + 5) % 16)
  else (mask32 (r.c ^^^ (r.b ||| mask32 (~~~r.d))), (7 * i) % 16)

/-- The body of the main loop. -/
def step (m : List (BitVec w)) (r : Registers w) (i : Nat) : Registers w :=
  let selected := select mask32 i r
  let f := mask32 (selected.1 + r.a + (K w).getD i 0 + m.getD selected.2 0)
  let f := mask32 ((f <<< s.getD i 0) ||| (f >>> (32 - s.getD i 0)))
  ⟨r.d, mask32 (r.b + f), r.b, r.c⟩

/-- What a chunk makes of the hash. -/
def processChunk (m : List (BitVec w)) (hash : Registers w) : Registers w :=
  let r := (List.range 64).foldl (step mask32 m) hash
  ⟨mask32 (hash.a + r.a), mask32 (hash.b + r.b), mask32 (hash.c + r.c), mask32 (hash.d + r.d)⟩

/-- `result`. -/
def output (hash : Registers w) : Bytes :=
  [hash.a, hash.b, hash.c, hash.d].flatMap fun (word : BitVec w) =>
    [0, 8, 16, 24].map fun (shift : Nat) => UInt8.ofBitVec ((0xFF &&& (word >>> shift)).setWidth 8)

/-- The loop of `_S_process` over its first chunks. -/
def processChunks (paddedMessage : Bytes) (count : Nat) : Reading (Registers w) :=
  (List.range count).foldlM (fun hash index => do
    let m ← words paddedMessage (64 * index)
    return processChunk mask32 (m.map (BitVec.signExtend w)) hash) (initial w)

/-- `_S_process`. -/
def process (paddedMessage : Bytes) : Reading Bytes :=
  output <$> processChunks mask32 paddedMessage ((paddedMessage.length + 63) / 64)

/-- `md5::digest`. -/
def digest (message : Bytes) : Option Bytes := StateT.run' (process mask32 (preprocess message)) []

end

end ImpactSockets.Md5
