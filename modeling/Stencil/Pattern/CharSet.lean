import Stencil.Text.Blank
import Stencil.Text.CaseFold
import Stencil.Text.WordChar

/-!
# Sets of characters

A set can be written in many ways, as `[ab]`, `[ba]` and `[a-b]` show, but it has one list of increasing
ranges with gaps between them, so sets are equal when their lists are.
-/

namespace Stencil

/-- A set of characters, as ranges of code points. -/
structure CharSet where
  ranges : List (Nat × Nat)
  deriving DecidableEq, Repr, Inhabited

namespace CharSet

/-! ### Members -/

/-- Whether a code point is in one of some ranges, which are in increasing order. -/
def covers : List (Nat × Nat) → Nat → Bool
  | [], _ => false
  | (low, high) :: more, n => low ≤ n && (n ≤ high || covers more n)

/-- The character is in the set. -/
def contains (s : CharSet) (c : Char) : Bool := covers s.ranges c.toNat

/-- The character, if there is just one. -/
def single? (s : CharSet) : Option Char :=
  match s.ranges with
  | [(low, high)] => if low = high then some (Char.ofNat low) else none
  | _ => none

/-! ### Sets from ranges -/

/-- One more range behind others, the last of which comes first. A range that overlaps or touches
the last one extends it. -/
def extend : List (Nat × Nat) → Nat × Nat → List (Nat × Nat)
  | [], r => [r]
  | (low, high) :: more, r =>
    if r.1 ≤ high + 1 then (low, max high r.2) :: more else r :: (low, high) :: more

/-- The characters of any ranges. -/
def ofRanges (ranges : List (Nat × Nat)) : CharSet :=
  ⟨((ranges.mergeSort fun r s => r.1 ≤ s.1).foldl extend []).reverse⟩

/-- No character. -/
def empty : CharSet := ⟨[]⟩

/-- All characters. -/
def any : CharSet := ⟨[(0, 0x10ffff)]⟩

/-- The characters from `low` to `high`. -/
def range (low high : Char) : CharSet := ⟨[(low.toNat, high.toNat)]⟩

/-- One character. -/
def single (c : Char) : CharSet := range c c

/-- The characters of words. -/
def word : CharSet :=
  ofRanges ([(0x30, 0x39), (0x41, 0x5a), (0x5f, 0x5f), (0x61, 0x7a)] ++ Text.wordRanges)

/-- The blanks. -/
def blank : CharSet := ofRanges Text.blankRanges

/-! ### Sets from sets -/

/-- The characters of one or the other. -/
def union (s t : CharSet) : CharSet := ofRanges (s.ranges ++ t.ranges)

/-- The characters of any of the sets. -/
def ofList (sets : List CharSet) : CharSet := ofRanges (sets.flatMap ranges)

/-- The code point of the character before the one with code point `n`. -/
def before (n : Nat) : Nat := if n = 0xe000 then 0xd7ff else n - 1

/-- The code point of the character after the one with code point `n`. -/
def after (n : Nat) : Nat := if n = 0xd7ff then 0xe000 else n + 1

/-- What is between ranges, from `start` on. -/
def gaps (start : Nat) : List (Nat × Nat) → List (Nat × Nat)
  | [] => if start ≤ 0x10ffff then [(start, 0x10ffff)] else []
  | (low, high) :: more =>
    if start < low then (start, before low) :: gaps (after high) more else gaps (after high) more

/-- The other characters. -/
def compl (s : CharSet) : CharSet := ⟨gaps 0 s.ranges⟩

/-- The characters of both. -/
def inter (s t : CharSet) : CharSet := compl (union s.compl t.compl)

/-- The characters of the first only. -/
def diff (s t : CharSet) : CharSet := inter s t.compl

/-- The characters of just one of them. -/
def symmDiff (s t : CharSet) : CharSet := union (diff s t) (diff t s)

/-- The characters that differ from one in the set in case only, or not at all. A case class is
added as a whole once the set has one of its letters. -/
def caseless (s : CharSet) : CharSet :=
  let met := ofRanges <| Text.foldPairs.filterMap fun (n, target) =>
    if covers s.ranges n || covers s.ranges target then some (target, target) else none
  let letters := Text.foldPairs.filterMap fun (n, target) =>
    if covers met.ranges target then some (n, n) else none
  ofRanges (s.ranges ++ met.ranges ++ letters)

/-! ### Names -/

/-- The sets with names. -/
def ascii : List (String × CharSet) :=
  let digit := range '0' '9'
  let upper := range 'A' 'Z'
  let lower := range 'a' 'z'
  [("alnum", ofList [digit, upper, lower]),
   ("alpha", ofList [upper, lower]),
   ("ascii", range '\x00' '\x7f'),
   ("blank", ofList [single '\t', single ' ']),
   ("cntrl", ofList [range '\x00' '\x1f', single '\x7f']),
   ("digit", digit),
   ("graph", range '!' '~'),
   ("lower", lower),
   ("print", range ' ' '~'),
   ("punct", ofList [range '!' '/', range ':' '@', range '[' '\x60', range '\x7b' '~']),
   ("space", ofList [range '\t' '\r', single ' ']),
   ("upper", upper),
   ("word", ofList [digit, upper, single '_', lower]),
   ("xdigit", ofList [digit, range 'A' 'F', range 'a' 'f'])]

end CharSet

end Stencil
