/-!
# Letters that differ in case only

Simple case folding, as of Unicode 16.0, sends each letter to a representative of its case class.
-/

namespace Stencil.Text

/-- Evenly spaced code points that fold by the same distance. -/
structure FoldRow where
  first : Nat
  last : Nat
  step : Nat
  shift : Int

/-- The row moves this code point. -/
def FoldRow.covers (r : FoldRow) (n : Nat) : Bool :=
  r.first ≤ n && n ≤ r.last && (n - r.first) % r.step == 0

/-- The code points that fold by a distance of their own. -/
def foldSingles : List (Nat × Int) :=
  [(0xb5, 775), (0x178, -121), (0x17f, -268), (0x181, 210), (0x186, 206), (0x187, 1), (0x18b, 1),
   (0x18e, 79), (0x18f, 202), (0x190, 203), (0x191, 1), (0x193, 205), (0x194, 207), (0x196, 211),
   (0x197, 209), (0x198, 1), (0x19c, 211), (0x19d, 213), (0x19f, 214), (0x1a6, 218), (0x1a7, 1),
   (0x1a9, 218), (0x1ac, 1), (0x1ae, 218), (0x1af, 1), (0x1b7, 219), (0x1b8, 1), (0x1bc, 1),
   (0x1c4, 2), (0x1c5, 1), (0x1c7, 2), (0x1c8, 1), (0x1ca, 2), (0x1f1, 2), (0x1f6, -97),
   (0x1f7, -56), (0x220, -130), (0x23a, 10795), (0x23b, 1), (0x23d, -163), (0x23e, 10792),
   (0x241, 1), (0x243, -195), (0x244, 69), (0x245, 71), (0x345, 116), (0x376, 1), (0x37f, 116),
   (0x386, 38), (0x38c, 64), (0x3c2, 1), (0x3cf, 8), (0x3d0, -30), (0x3d1, -25), (0x3d5, -15),
   (0x3d6, -22), (0x3f0, -54), (0x3f1, -48), (0x3f4, -60), (0x3f5, -64), (0x3f7, 1), (0x3f9, -7),
   (0x3fa, 1), (0x4c0, 15), (0x10c7, 7264), (0x10cd, 7264), (0x1c80, -6222), (0x1c81, -6221),
   (0x1c82, -6212), (0x1c85, -6211), (0x1c86, -6204), (0x1c87, -6180), (0x1c88, 35267), (0x1c89, 1),
   (0x1e9b, -58), (0x1e9e, -7615), (0x1fbc, -9), (0x1fbe, -7173), (0x1fcc, -9), (0x1fd3, -7235),
   (0x1fe3, -7219), (0x1fec, -7), (0x1ffc, -9), (0x2126, -7517), (0x212a, -8383), (0x212b, -8262),
   (0x2132, 28), (0x2183, 1), (0x2c60, 1), (0x2c62, -10743), (0x2c63, -3814), (0x2c64, -10727),
   (0x2c6d, -10780), (0x2c6e, -10749), (0x2c6f, -10783), (0x2c70, -10782), (0x2c72, 1), (0x2c75, 1),
   (0x2cf2, 1), (0xa77d, -35332), (0xa78b, 1), (0xa78d, -42280), (0xa7aa, -42308), (0xa7ab, -42319),
   (0xa7ac, -42315), (0xa7ad, -42305), (0xa7ae, -42308), (0xa7b0, -42258), (0xa7b1, -42282),
   (0xa7b2, -42261), (0xa7b3, 928), (0xa7c4, -48), (0xa7c5, -42307), (0xa7c6, -35384),
   (0xa7cb, -42343), (0xa7cc, 1), (0xa7d0, 1), (0xa7dc, -42561), (0xa7f5, 1), (0xfb05, 1)]

/-- All rows. -/
def foldRows : List FoldRow :=
  foldSingles.map (fun (n, shift) => ⟨n, n, 1, shift⟩) ++
  [⟨0x41, 0x5a, 1, 32⟩, ⟨0xc0, 0xd6, 1, 32⟩, ⟨0xd8, 0xde, 1, 32⟩, ⟨0x100, 0x12e, 2, 1⟩,
   ⟨0x132, 0x136, 2, 1⟩, ⟨0x139, 0x147, 2, 1⟩, ⟨0x14a, 0x176, 2, 1⟩, ⟨0x179, 0x17d, 2, 1⟩,
   ⟨0x182, 0x184, 2, 1⟩, ⟨0x189, 0x18a, 1, 205⟩, ⟨0x1a0, 0x1a4, 2, 1⟩, ⟨0x1b1, 0x1b2, 1, 217⟩,
   ⟨0x1b3, 0x1b5, 2, 1⟩, ⟨0x1cb, 0x1db, 2, 1⟩, ⟨0x1de, 0x1ee, 2, 1⟩, ⟨0x1f2, 0x1f4, 2, 1⟩,
   ⟨0x1f8, 0x21e, 2, 1⟩, ⟨0x222, 0x232, 2, 1⟩, ⟨0x246, 0x24e, 2, 1⟩, ⟨0x370, 0x372, 2, 1⟩,
   ⟨0x388, 0x38a, 1, 37⟩, ⟨0x38e, 0x38f, 1, 63⟩, ⟨0x391, 0x3a1, 1, 32⟩, ⟨0x3a3, 0x3ab, 1, 32⟩,
   ⟨0x3d8, 0x3ee, 2, 1⟩, ⟨0x3fd, 0x3ff, 1, -130⟩, ⟨0x400, 0x40f, 1, 80⟩, ⟨0x410, 0x42f, 1, 32⟩,
   ⟨0x460, 0x480, 2, 1⟩, ⟨0x48a, 0x4be, 2, 1⟩, ⟨0x4c1, 0x4cd, 2, 1⟩, ⟨0x4d0, 0x52e, 2, 1⟩,
   ⟨0x531, 0x556, 1, 48⟩, ⟨0x10a0, 0x10c5, 1, 7264⟩, ⟨0x13f8, 0x13fd, 1, -8⟩,
   ⟨0x1c83, 0x1c84, 1, -6210⟩, ⟨0x1c90, 0x1cba, 1, -3008⟩, ⟨0x1cbd, 0x1cbf, 1, -3008⟩,
   ⟨0x1e00, 0x1e94, 2, 1⟩, ⟨0x1ea0, 0x1efe, 2, 1⟩, ⟨0x1f08, 0x1f0f, 1, -8⟩, ⟨0x1f18, 0x1f1d, 1, -8⟩,
   ⟨0x1f28, 0x1f2f, 1, -8⟩, ⟨0x1f38, 0x1f3f, 1, -8⟩, ⟨0x1f48, 0x1f4d, 1, -8⟩,
   ⟨0x1f59, 0x1f5f, 2, -8⟩, ⟨0x1f68, 0x1f6f, 1, -8⟩, ⟨0x1f88, 0x1f8f, 1, -8⟩,
   ⟨0x1f98, 0x1f9f, 1, -8⟩, ⟨0x1fa8, 0x1faf, 1, -8⟩, ⟨0x1fb8, 0x1fb9, 1, -8⟩,
   ⟨0x1fba, 0x1fbb, 1, -74⟩, ⟨0x1fc8, 0x1fcb, 1, -86⟩, ⟨0x1fd8, 0x1fd9, 1, -8⟩,
   ⟨0x1fda, 0x1fdb, 1, -100⟩, ⟨0x1fe8, 0x1fe9, 1, -8⟩, ⟨0x1fea, 0x1feb, 1, -112⟩,
   ⟨0x1ff8, 0x1ff9, 1, -128⟩, ⟨0x1ffa, 0x1ffb, 1, -126⟩, ⟨0x2160, 0x216f, 1, 16⟩,
   ⟨0x24b6, 0x24cf, 1, 26⟩, ⟨0x2c00, 0x2c2f, 1, 48⟩, ⟨0x2c67, 0x2c6b, 2, 1⟩,
   ⟨0x2c7e, 0x2c7f, 1, -10815⟩, ⟨0x2c80, 0x2ce2, 2, 1⟩, ⟨0x2ceb, 0x2ced, 2, 1⟩,
   ⟨0xa640, 0xa66c, 2, 1⟩, ⟨0xa680, 0xa69a, 2, 1⟩, ⟨0xa722, 0xa72e, 2, 1⟩, ⟨0xa732, 0xa76e, 2, 1⟩,
   ⟨0xa779, 0xa77b, 2, 1⟩, ⟨0xa77e, 0xa786, 2, 1⟩, ⟨0xa790, 0xa792, 2, 1⟩, ⟨0xa796, 0xa7a8, 2, 1⟩,
   ⟨0xa7b4, 0xa7c2, 2, 1⟩, ⟨0xa7c7, 0xa7c9, 2, 1⟩, ⟨0xa7d6, 0xa7da, 2, 1⟩,
   ⟨0xab70, 0xabbf, 1, -38864⟩, ⟨0xff21, 0xff3a, 1, 32⟩, ⟨0x10400, 0x10427, 1, 40⟩,
   ⟨0x104b0, 0x104d3, 1, 40⟩, ⟨0x10570, 0x1057a, 1, 39⟩, ⟨0x1057c, 0x1058a, 1, 39⟩,
   ⟨0x1058c, 0x10592, 1, 39⟩, ⟨0x10594, 0x10595, 1, 39⟩, ⟨0x10c80, 0x10cb2, 1, 64⟩,
   ⟨0x10d50, 0x10d65, 1, 32⟩, ⟨0x118a0, 0x118bf, 1, 32⟩, ⟨0x16e40, 0x16e5f, 1, 32⟩,
   ⟨0x1e900, 0x1e921, 1, 34⟩]

/-- Where a code point is sent. -/
def foldCode (n : Nat) : Nat :=
  match foldRows.find? (·.covers n) with
  | some r => (n + r.shift).toNat
  | none => n

/-- Every code point that is moved, with the representative it is sent to. -/
def foldPairs : List (Nat × Nat) :=
  foldRows.flatMap fun r =>
    (List.range ((r.last - r.first) / r.step + 1)).map fun i =>
      let n := r.first + i * r.step
      (n, ((n : Int) + r.shift).toNat)

/-- The code points that are sent to the same one. -/
def caseClass (n : Nat) : List Nat :=
  let target := foldCode n
  let sources := foldRows.filterMap fun r =>
    let source := ((target : Int) - r.shift).toNat
    if r.covers source && foldCode source == target then some source else none
  target :: sources

/-- Whether some letter that differs from `c` in case only, or `c` itself, satisfies `p`. -/
def anyCase (p : Char → Bool) (c : Char) : Bool :=
  p c || (caseClass c.toNat).any fun n => p (Char.ofNat n)

end Stencil.Text
