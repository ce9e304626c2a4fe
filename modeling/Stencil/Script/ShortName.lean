/-!
# Short names

The names given to renamed identifiers are the non-empty words over `a` to `z`, shorter words
first and words of one length in alphabetical order: `a`, …, `z`, `aa`, `ab`, …, `az`, `ba`, ….
A name is free if it is neither in use nor a reserved word of scripts.
-/

namespace Stencil.ShortName

/-- The words of the script language that are no identifiers. -/
def reservedWords : List String :=
  ["await", "break", "case", "catch", "class", "const", "continue", "debugger", "default",
   "delete", "do", "else", "enum", "export", "extends", "false", "finally", "for", "function",
   "if", "implements", "import", "in", "instanceof", "interface", "let", "new", "null",
   "package", "private", "protected", "public", "return", "static", "super", "switch", "this",
   "throw", "true", "try", "typeof", "var", "void", "while", "with", "yield"]

/-- It is a reserved word. -/
def isReserved (name : String) : Bool := reservedWords.contains name

/-- The letter of a digit. -/
def letter (i : Nat) : Char := Char.ofNat ('a'.toNat + i % 26)

/-- The letters of the `n`-th word, counted from one; there are none for zero. The digits of `n`
in base 26 run from 1 to 26. -/
def letters (n : Nat) : List Char :=
  if _h : n = 0 then [] else letters ((n - 1) / 26) ++ [letter (n - 1)]
termination_by n
decreasing_by omega

/-- The `n`-th name. -/
def nth (n : Nat) : String := String.ofList (letters (n + 1))

/-- A name that can be given when the names in `used` are taken. -/
def isFree (used : List String) (name : String) : Bool :=
  !used.contains name && !isReserved name

/-- The first free name among `count` names from the `n`-th on, or the one after them. -/
def firstFreeFrom (used : List String) : (count n : Nat) → String
  | 0, n => nth n
  | count + 1, n => if isFree used (nth n) then nth n else firstFreeFrom used count (n + 1)

/-- The first free name. Among one more names than there are used and reserved ones, one is
free. -/
def firstFree (used : List String) : String :=
  firstFreeFrom used (used.length + reservedWords.length) 0

end Stencil.ShortName
