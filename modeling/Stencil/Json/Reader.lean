import Stencil.Json.Basic
import Stencil.Text.Hex

/-!
# Reading JSON

Strict JSON: no comments, no trailing commas, no leading zeros, no control characters in strings.
A text is one value with blanks around it.
-/

namespace Stencil.Json

/-- The text behind the blanks. -/
def skipBlanks (cs : List Char) : List Char :=
  cs.dropWhile fun c => c == ' ' || c == '\n' || c == '\t' || c == '\r'

/-- Four hexadecimal digits as a number, with the rest of the text. -/
def hex4? : List Char → Option (Nat × List Char)
  | a :: b :: c :: d :: cs => (Text.hexValue? [a, b, c, d]).map (·, cs)
  | _ => none

/-- What a letter behind a backslash stands for. -/
def simpleEscape? : Char → Option Char
  | '"' => some '"'
  | '\\' => some '\\'
  | '/' => some '/'
  | 'b' => some '\x08'
  | 'f' => some '\x0c'
  | 'n' => some '\n'
  | 'r' => some '\r'
  | 't' => some '\t'
  | _ => none

/-- One unit of a string: a character, or a number from an escape of four digits. -/
inductive StringUnit where
  | char (c : Char)
  | code (n : Nat)

/-- The units of a string up to its closing quote, with the rest of the text. -/
def stringUnits? : Nat → List Char → Option (List StringUnit × List Char)
  | 0, _ => none
  | _, [] => none
  | _ + 1, '"' :: cs => some ([], cs)
  | n + 1, '\\' :: 'u' :: cs => do
    let (code, cs) ← hex4? cs
    let (units, cs) ← stringUnits? n cs
    return (.code code :: units, cs)
  | n + 1, '\\' :: c :: cs => do
    let c ← simpleEscape? c
    let (units, cs) ← stringUnits? n cs
    return (.char c :: units, cs)
  | n + 1, c :: cs => do
    if c.toNat < 0x20 || c == '\\' then none
    let (units, cs) ← stringUnits? n cs
    return (.char c :: units, cs)

/-- The characters of a string. A pair of surrogates is one character, a single one is none. -/
def decode? : List StringUnit → Option (List Char)
  | [] => some []
  | .char c :: units => (decode? units).map (c :: ·)
  | .code high :: units =>
    if 0xd800 ≤ high && high < 0xdc00 then
      match units with
      | .code low :: units =>
        if 0xdc00 ≤ low && low < 0xe000 then
          let code := 0x10000 + (high - 0xd800) * 0x400 + (low - 0xdc00)
          (decode? units).map (Char.ofNat code :: ·)
        else none
      | _ => none
    else if 0xdc00 ≤ high && high < 0xe000 then none
    else (decode? units).map (Char.ofNat high :: ·)

/-- A string after its opening quote, with the rest of the text. -/
def string? (cs : List Char) : Option (Option String × List Char) := do
  let (units, cs) ← stringUnits? (cs.length + 1) cs
  return ((decode? units).map String.ofList, cs)

/-- One digit or more. -/
def digits? (cs : List Char) : Option (List Char × List Char) :=
  match cs.takeWhile Char.isDigit with
  | [] => none
  | ds => some (ds, cs.drop ds.length)

/-- The digits in front of the point, which start with zero only if there is no other. -/
def wholePart? : List Char → Option (List Char × List Char)
  | '0' :: cs => if (digits? cs).isSome then none else some (['0'], cs)
  | cs => digits? cs

/-- A number, kept as it is written. -/
def number? (cs : List Char) : Option (String × List Char) := do
  let (sign, cs) := match cs with
    | '-' :: cs => (['-'], cs)
    | _ => ([], cs)
  let (whole, cs) ← wholePart? cs
  let (fraction, cs) ← match cs with
    | '.' :: cs => (digits? cs).map fun (ds, cs) => ('.' :: ds, cs)
    | _ => some ([], cs)
  let (exponent, cs) ← match cs with
    | e :: cs' =>
      if e == 'e' || e == 'E' then
        match cs' with
        | s :: cs'' =>
          if s == '+' || s == '-' then (digits? cs'').map fun (ds, cs) => (e :: s :: ds, cs)
          else (digits? cs').map fun (ds, cs) => (e :: ds, cs)
        | [] => none
      else some ([], cs)
    | [] => some ([], cs)
  return (String.ofList (sign ++ whole ++ fraction ++ exponent), cs)

/-- A word and what is behind it. -/
def word? (word : String) (cs : List Char) : Option (List Char) :=
  if word.toList.isPrefixOf cs then some (cs.drop word.length) else none

mutual

/-- A value and what is behind it. -/
def value? : Nat → List Char → Option (Json × List Char)
  | 0, _ => none
  | n + 1, cs =>
    match skipBlanks cs with
    | '"' :: cs => (string? cs).map fun (s, cs) => (string s, cs)
    | '[' :: cs =>
      match skipBlanks cs with
      | ']' :: cs => some (array [], cs)
      | cs => (items? n cs).map fun (items, cs) => (array items, cs)
    | '\x7b' :: cs =>
      match skipBlanks cs with
      | '\x7d' :: cs => some (object [], cs)
      | cs => (members? n cs).map fun (fields, cs) => (object fields, cs)
    | 'n' :: cs => (word? "ull" cs).map (null, ·)
    | 't' :: cs => (word? "rue" cs).map (bool true, ·)
    | 'f' :: cs => (word? "alse" cs).map (bool false, ·)
    | cs => (number? cs).map fun (digits, cs) => (number digits, cs)

/-- The items of an array up to its closing bracket, at least one. -/
def items? : Nat → List Char → Option (List Json × List Char)
  | 0, _ => none
  | n + 1, cs => do
    let (item, cs) ← value? n cs
    match skipBlanks cs with
    | ']' :: cs => return ([item], cs)
    | ',' :: cs => do
      let (items, cs) ← items? n cs
      return (item :: items, cs)
    | _ => none

/-- The fields of an object up to its closing brace, at least one. -/
def members? : Nat → List Char → Option (List (Option String × Json) × List Char)
  | 0, _ => none
  | n + 1, cs => do
    match skipBlanks cs with
    | '"' :: cs => do
      let (name, cs) ← string? cs
      match skipBlanks cs with
      | ':' :: cs => do
        let (value, cs) ← value? n cs
        match skipBlanks cs with
        | '\x7d' :: cs => return ([(name, value)], cs)
        | ',' :: cs => do
          let (fields, cs) ← members? n cs
          return ((name, value) :: fields, cs)
        | _ => none
      | _ => none
    | _ => none

end

/-- The value that a text is. -/
def ofText? (text : String) : Option Json := do
  let cs := text.toList
  let (value, cs) ← value? (2 * cs.length + 2) cs
  if (skipBlanks cs).isEmpty then some value else none

end Stencil.Json
