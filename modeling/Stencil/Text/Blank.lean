/-!
# Blank characters

Trimming and splitting into words are defined over lists of characters and lifted to strings.
-/

namespace Stencil.Text

/-- The blanks, as closed ranges of code points in increasing order. -/
def blankRanges : List (Nat × Nat) :=
  [(0x9, 0xd), (0x20, 0x20), (0x85, 0x85), (0xa0, 0xa0), (0x1680, 0x1680), (0x2000, 0x200a),
   (0x2028, 0x2029), (0x202f, 0x202f), (0x205f, 0x205f), (0x3000, 0x3000)]

/-- It separates words. -/
def isBlank (c : Char) : Bool :=
  blankRanges.any fun r => r.1 ≤ c.toNat && c.toNat ≤ r.2

/-- The characters without those at the end that satisfy `p`. -/
def dropEndWhile (p : Char → Bool) (cs : List Char) : List Char :=
  (cs.reverse.dropWhile p).reverse

/-- The text without the blanks in front. -/
def trimStart (s : String) : String :=
  String.ofList (s.toList.dropWhile isBlank)

/-- The text without the blanks at its end. -/
def trimEnd (s : String) : String :=
  String.ofList (dropEndWhile isBlank s.toList)

/-- The text without the blanks around it. -/
def trim (s : String) : String :=
  String.ofList (dropEndWhile isBlank (s.toList.dropWhile isBlank))

/-- The first maximal run of non-blank characters, if there is one. -/
def firstWord? (s : String) : Option String :=
  match s.toList.dropWhile isBlank with
  | [] => none
  | c :: cs => some (String.ofList (c :: cs.takeWhile (!isBlank ·)))

/-- Whether `part` is a block of consecutive characters of the list. -/
def hasInfix (part : List Char) : List Char → Bool
  | [] => part.isEmpty
  | c :: cs => part.isPrefixOf (c :: cs) || hasInfix part cs

/-- An upper-case letter of the ASCII range becomes lower case, all else stays. -/
def asciiLower (s : String) : String :=
  s.map Char.toLower

/-- The texts differ at most in the case of ASCII letters. -/
def sameAsciiCaseless (s t : String) : Bool :=
  asciiLower s == asciiLower t

end Stencil.Text
