/-!
# The 64-bit hash of content

XXH3 with 64 bits of output and seed zero.
-/

namespace Stencil.Xxh3

/-- The bytes the input is keyed with. -/
def secret : Array UInt8 :=
  #[0xb8, 0xfe, 0x6c, 0x39, 0x23, 0xa4, 0x4b, 0xbe, 0x7c, 0x01, 0x81, 0x2c, 0xf7, 0x21, 0xad, 0x1c,
    0xde, 0xd4, 0x6d, 0xe9, 0x83, 0x90, 0x97, 0xdb, 0x72, 0x40, 0xa4, 0xa4, 0xb7, 0xb3, 0x67, 0x1f,
    0xcb, 0x79, 0xe6, 0x4e, 0xcc, 0xc0, 0xe5, 0x78, 0x82, 0x5a, 0xd0, 0x7d, 0xcc, 0xff, 0x72, 0x21,
    0xb8, 0x08, 0x46, 0x74, 0xf7, 0x43, 0x24, 0x8e, 0xe0, 0x35, 0x90, 0xe6, 0x81, 0x3a, 0x26, 0x4c,
    0x3c, 0x28, 0x52, 0xbb, 0x91, 0xc3, 0x00, 0xcb, 0x88, 0xd0, 0x65, 0x8b, 0x1b, 0x53, 0x2e, 0xa3,
    0x71, 0x64, 0x48, 0x97, 0xa2, 0x0d, 0xf9, 0x4e, 0x38, 0x19, 0xef, 0x46, 0xa9, 0xde, 0xac, 0xd8,
    0xa8, 0xfa, 0x76, 0x3f, 0xe3, 0x9c, 0x34, 0x3f, 0xf9, 0xdc, 0xbb, 0xc7, 0xc7, 0x0b, 0x4f, 0x1d,
    0x8a, 0x51, 0xe0, 0x4b, 0xcd, 0xb4, 0x59, 0x31, 0xc8, 0x9f, 0x7e, 0xc9, 0xd9, 0x78, 0x73, 0x64,
    0xea, 0xc5, 0xac, 0x83, 0x34, 0xd3, 0xeb, 0xc3, 0xc5, 0x81, 0xa0, 0xff, 0xfa, 0x13, 0x63, 0xeb,
    0x17, 0x0d, 0xdd, 0x51, 0xb7, 0xf0, 0xda, 0x49, 0xd3, 0x16, 0x55, 0x26, 0x29, 0xd4, 0x68, 0x9e,
    0x2b, 0x16, 0xbe, 0x58, 0x7d, 0x47, 0xa1, 0xfc, 0x8f, 0xf8, 0xb8, 0xd1, 0x7a, 0xd0, 0x31, 0xce,
    0x45, 0xcb, 0x3a, 0x8f, 0x95, 0x16, 0x04, 0x28, 0xaf, 0xd7, 0xfb, 0xca, 0xbb, 0x4b, 0x40, 0x7e]

/-- The first 32-bit prime. -/
def prime32a : UInt64 := 0x9E3779B1
/-- The second 32-bit prime. -/
def prime32b : UInt64 := 0x85EBCA77
/-- The third 32-bit prime. -/
def prime32c : UInt64 := 0xC2B2AE3D
/-- The first 64-bit prime. -/
def prime64a : UInt64 := 0x9E3779B185EBCA87
/-- The second 64-bit prime. -/
def prime64b : UInt64 := 0xC2B2AE3D27D4EB4F
/-- The third 64-bit prime. -/
def prime64c : UInt64 := 0x165667B19E3779F9
/-- The fourth 64-bit prime. -/
def prime64d : UInt64 := 0x85EBCA77C2B2AE63
/-- The fifth 64-bit prime. -/
def prime64e : UInt64 := 0x27D4EB2F165667C5
/-- The factor of `avalanche`. -/
def primeMxA : UInt64 := 0x165667919E3779F9
/-- The factor for four to eight bytes. -/
def primeMxB : UInt64 := 0x9FB21C651E98DF25

/-- The byte at `i`. -/
def byte (b : Array UInt8) (i : Nat) : UInt64 := (b.getD i 0).toUInt64

/-- The four bytes from `i`, the lowest first. -/
def read32 (b : Array UInt8) (i : Nat) : UInt64 :=
  byte b i ||| byte b (i + 1) <<< 8 ||| byte b (i + 2) <<< 16 ||| byte b (i + 3) <<< 24

/-- The eight bytes from `i`, the lowest first. -/
def read64 (b : Array UInt8) (i : Nat) : UInt64 :=
  read32 b i ||| read32 b (i + 4) <<< 32

/-- The bits rotated to the left. -/
def rotl (x n : UInt64) : UInt64 := (x <<< n) ||| (x >>> (64 - n))

/-- The bytes in reverse. -/
def swap64 (x : UInt64) : UInt64 :=
  (List.range 8).foldl (fun acc i => acc <<< 8 ||| ((x >>> (8 * i.toUInt64)) &&& 0xff)) 0

/-- The two halves of the product, combined. -/
def mulFold (x y : UInt64) : UInt64 :=
  let p := x.toNat * y.toNat
  UInt64.ofNat p ^^^ UInt64.ofNat (p >>> 64)

/-- The upper bits folded into the lower ones by a shift. -/
def xorShift (x n : UInt64) : UInt64 := x ^^^ (x >>> n)

/-- The last mixing step. -/
def avalanche (h : UInt64) : UInt64 :=
  xorShift (xorShift h 37 * primeMxA) 32

/-- The last mixing step for up to three bytes. -/
def avalancheShort (h : UInt64) : UInt64 :=
  xorShift (xorShift (xorShift h 33 * prime64b) 29 * prime64c) 32

/-- The hash of up to 16 bytes. -/
def hashTo16 (b : Array UInt8) : UInt64 :=
  let n := b.size
  if n > 8 then
    let flip1 := read64 secret 24 ^^^ read64 secret 32
    let flip2 := read64 secret 40 ^^^ read64 secret 48
    let low := read64 b 0 ^^^ flip1
    let high := read64 b (n - 8) ^^^ flip2
    avalanche (n.toUInt64 + swap64 low + high + mulFold low high)
  else if n ≥ 4 then
    let flip := read64 secret 8 ^^^ read64 secret 16
    let keyed := (read32 b (n - 4) + read32 b 0 <<< 32) ^^^ flip
    let h := keyed ^^^ rotl keyed 49 ^^^ rotl keyed 24
    let h := h * primeMxB
    let h := h ^^^ ((h >>> 35) + n.toUInt64)
    let h := h * primeMxB
    xorShift h 28
  else if n > 0 then
    let combined := byte b 0 <<< 16 ||| byte b (n / 2) <<< 24 ||| byte b (n - 1) |||
      n.toUInt64 <<< 8
    avalancheShort (combined ^^^ (read32 secret 0 ^^^ read32 secret 4))
  else
    avalancheShort (read64 secret 56 ^^^ read64 secret 64)

/-- The 16 bytes from `i`, keyed from `k`. -/
def mix16 (b : Array UInt8) (i k : Nat) : UInt64 :=
  mulFold (read64 b i ^^^ read64 secret k) (read64 b (i + 8) ^^^ read64 secret (k + 8))

/-- Between 17 and 128 bytes: pieces from both ends inwards. -/
def hashTo128 (b : Array UInt8) : UInt64 :=
  let n := b.size
  let rounds := (n - 1) / 32 + 1
  let acc := (List.range rounds).foldl (fun acc i =>
    acc + mix16 b (16 * i) (32 * i) + mix16 b (n - 16 * (i + 1)) (32 * i + 16))
    (n.toUInt64 * prime64a)
  avalanche acc

/-- The hash of 129 to 240 bytes. -/
def hashTo240 (b : Array UInt8) : UInt64 :=
  let n := b.size
  let acc := (List.range 8).foldl (fun acc i => acc + mix16 b (16 * i) (16 * i))
    (n.toUInt64 * prime64a)
  let acc := avalanche acc
  let acc := (List.range (n / 16 - 8)).foldl
    (fun acc i => acc + mix16 b (16 * (i + 8)) (16 * i + 3)) acc
  avalanche (acc + mix16 b (n - 16) (136 - 17))

/-- The accumulators at the start. -/
def initialLanes : Array UInt64 :=
  #[prime32c, prime64a, prime64b, prime64c, prime64d, prime32b, prime64e, prime32a]

/-- One stripe is taken in. -/
def accumulate (lanes : Array UInt64) (b : Array UInt8) (i k : Nat) : Array UInt64 :=
  (List.range 8).foldl (fun lanes j =>
    let value := read64 b (i + 8 * j)
    let keyed := value ^^^ read64 secret (k + 8 * j)
    let product := (keyed &&& (0xffffffff : UInt64)) * (keyed >>> 32)
    (lanes.modify (j ^^^ 1) fun x => x + value).modify j fun x => x + product) lanes

/-- The accumulators are mixed after a block of stripes. -/
def scramble (lanes : Array UInt64) : Array UInt64 :=
  lanes.mapIdx fun j x =>
    (xorShift x 47 ^^^ read64 secret (secret.size - 64 + 8 * j)) * prime32a

/-- The accumulators make up one word. -/
def merge (lanes : Array UInt64) (k : Nat) (start : UInt64) : UInt64 :=
  avalanche ((List.range 4).foldl (fun acc j =>
    acc + mulFold (lanes.getD (2 * j) 0 ^^^ read64 secret (k + 16 * j))
      (lanes.getD (2 * j + 1) 0 ^^^ read64 secret (k + 16 * j + 8))) start)

/-- How many stripes there are between two scramblings. -/
def stripesPerBlock : Nat := (secret.size - 64) / 8

/-- The hash of more than 240 bytes. -/
def hashLong (b : Array UInt8) : UInt64 :=
  let n := b.size
  -- The last stripe is read from the end, so one byte less is cut into stripes here.
  let stripes := (n - 1) / 64
  let lanes := (List.range stripes).foldl (fun lanes s =>
    let lanes := accumulate lanes b (64 * s) (8 * (s % stripesPerBlock))
    if s % stripesPerBlock + 1 = stripesPerBlock then scramble lanes else lanes) initialLanes
  let lanes := accumulate lanes b (n - 64) (secret.size - 64 - 7)
  merge lanes 11 (n.toUInt64 * prime64a)

/-- The hash of any bytes. -/
def hash (b : Array UInt8) : UInt64 :=
  if b.size ≤ 16 then hashTo16 b
  else if b.size ≤ 128 then hashTo128 b
  else if b.size ≤ 240 then hashTo240 b
  else hashLong b

end Stencil.Xxh3
