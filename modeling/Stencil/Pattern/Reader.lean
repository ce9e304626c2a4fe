import Stencil.Pattern.Expr
import Stencil.Text.Hex

/-!
# Patterns written as text

The usual notation: characters stand for themselves, `.` for any character, `[...]` and `[^...]`
for classes, `\w` for word characters, `\s` for blanks, `\n` and the like for control characters,
`\x` and two digits for a code; `*`, `+` and `?` repeat what stands before them, `|` separates
alternatives, parentheses group, and `(?i)` makes the rest of its group blind to case.

A class may hold other classes, and `&&`, `--` and `~~` combine what stands on both sides of them.

The text of a pattern is read between the parentheses of a group that matches at the start of the
text only. Text that closes this group early and goes on with `|` has alternatives outside the
group, and these match anywhere.
-/

namespace Stencil.Pattern

/-- How letters and `.` are read. -/
structure Flags where
  caseless : Bool := false
  dotAll : Bool := true

namespace Flags

/-- The set, in any case if the flag says so. -/
def fold (f : Flags) (s : CharSet) : CharSet := if f.caseless then s.caseless else s

/-- What a dot matches. -/
def dot (f : Flags) : CharSet := if f.dotAll then .any else (CharSet.single '\n').compl

end Flags

/-! ### Nesting -/

/-- How deep groups, classes, repetitions and things side by side may be nested. -/
def nestingLimit : Nat := 250

/-- What has been read, with the number of levels in its text. -/
structure Nested (α : Type) where
  value : α
  depth : Nat := 0

namespace Nested

variable {α β : Type}

/-- One level further in. -/
def within (f : α → β) (x : Nested α) : Nested β := ⟨f x.value, x.depth + 1⟩

/-- What some things make up side by side. Two or more are one level; one stands for itself. -/
def beside (join : List α → β) (xs : List (Nested α)) : Nested β :=
  let depth := (xs.map depth).foldl max 0
  ⟨join (xs.map value), if xs.length ≤ 1 then depth else depth + 1⟩

end Nested

/-! ### Escapes -/

/-- The character with a code that is written with so many digits, or with any number of digits in
braces. -/
def codeEscape? (count : Nat) (cs : List Char) : Option (Char × List Char) := do
  let (digits, rest) ← match cs with
    | '\x7b' :: cs =>
      let digits := cs.takeWhile (· != '\x7d')
      if digits.isEmpty || (cs.drop digits.length).isEmpty then none
      else some (digits, cs.drop (digits.length + 1))
    | cs => if cs.length < count then none else some (cs.take count, cs.drop count)
  return (← Text.charOfCode? (← Text.hexValue? digits), rest)

/-- What stands for one character: a character or a shorthand for a set. -/
inductive Item where
  | char (c : Char)
  | set (s : CharSet)

/-- The characters of an item. -/
def Item.toSet : Item → CharSet
  | char c => .single c
  | set s => s

/-- The character or shorthand that stands behind a backslash, with the rest of the text. -/
def escape? : List Char → Option (Item × List Char)
  | [] => none
  | e :: cs =>
    match e with
    | 'n' => some (.char '\n', cs)
    | 't' => some (.char '\t', cs)
    | 'r' => some (.char '\r', cs)
    | 'f' => some (.char '\x0c', cs)
    | 'v' => some (.char '\x0b', cs)
    | 'a' => some (.char '\x07', cs)
    | 'x' => (codeEscape? 2 cs).map fun (c, cs) => (.char c, cs)
    | 'u' => (codeEscape? 4 cs).map fun (c, cs) => (.char c, cs)
    | 'U' => (codeEscape? 8 cs).map fun (c, cs) => (.char c, cs)
    | 'w' => some (.set .word, cs)
    | 'W' => some (.set CharSet.word.compl, cs)
    | 's' => some (.set .blank, cs)
    | 'S' => some (.set CharSet.blank.compl, cs)
    | '<' | '>' => none
    | e => if e.toNat < 0x80 && !e.isAlphanum then some (.char e, cs) else none

/-! ### Classes -/

/-- A character or a shorthand in a class, with the rest of the text. -/
def classItem? : List Char → Option (Item × List Char)
  | [] => none
  | '\\' :: cs => escape? cs
  | c :: cs => some (.char c, cs)

/-- A character, a shorthand or a range in a class, with the rest of the text. A hyphen in front of
the closing bracket or of another hyphen makes no range, and a range has a character on both
sides. -/
def classRange? (cs : List Char) : Option (CharSet × List Char) := do
  let (low, cs) ← classItem? cs
  match cs with
  | '-' :: next :: cs' =>
    if next = ']' || next = '-' then return (low.toSet, cs)
    else
      let (high, cs) ← classItem? (next :: cs')
      match low, high with
      | .char low, .char high => if high < low then none else return (.range low high, cs)
      | _, _ => none
  | cs => return (low.toSet, cs)

/-- A set as a class denotes it. Case is folded before the set is negated. -/
def classSet (f : Flags) (negated : Bool) (s : CharSet) : CharSet :=
  if negated then (f.fold s).compl else f.fold s

/-- A class of ASCII characters by its name, such as `[:alpha:]`, after its opening bracket. -/
def namedClass? (f : Flags) : List Char → Option (CharSet × List Char)
  | ':' :: cs => do
    let (negated, cs) := match cs with
      | '^' :: cs => (true, cs)
      | cs => (false, cs)
    let name := cs.takeWhile (· != ':')
    match cs.drop name.length with
    | ':' :: ']' :: rest =>
      let s ← CharSet.ascii.lookup (String.ofList name)
      return (classSet f negated s, rest)
    | _ => none
  | _ => none

/-- An operator between two sides of a class, with the rest of the text. -/
def classOperator? : List Char → Option ((CharSet → CharSet → CharSet) × List Char)
  | '&' :: '&' :: cs => some (.inter, cs)
  | '-' :: '-' :: cs => some (.diff, cs)
  | '~' :: '~' :: cs => some (.symmDiff, cs)
  | _ => none

/-- What a class holds first: hyphens, or else a closing bracket, are members there. -/
def leadingMembers (cs : List Char) : List (Nested CharSet) × List Char :=
  match cs.takeWhile (· == '-'), cs with
  | [], ']' :: rest => ([⟨.single ']', 0⟩], rest)
  | hyphens, cs => (hyphens.map (⟨.single ·, 0⟩), cs.drop hyphens.length)

mutual

/-- A class after its opening bracket, with the rest of the text. -/
def class? (f : Flags) : Nat → List Char → Option (Nested CharSet × List Char)
  | 0, _ => none
  | n + 1, cs => do
    let (negated, cs) := match cs with
      | '^' :: cs => (true, cs)
      | cs => (false, cs)
    let (first, cs) := leadingMembers cs
    let (members, cs) ← classMembers? f n id first cs
    return (members.within (classSet f negated), cs)

/-- The members of a class up to its closing bracket, with the rest of the text. What is read joins
`members`; `combine` puts them together with what stands in front of the last operator. -/
def classMembers? (f : Flags) : Nat → (combine : Nested CharSet → Nested CharSet) →
    (members : List (Nested CharSet)) → List Char → Option (Nested CharSet × List Char)
  | 0, _, _, _ => none
  | _, _, _, [] => none
  | _ + 1, combine, members, ']' :: cs => some (combine (.beside .ofList members), cs)
  | n + 1, combine, members, '[' :: cs =>
    match namedClass? f cs with
    | some (s, cs) => classMembers? f n combine (⟨s, 0⟩ :: members) cs
    | none => do
      let (s, cs) ← class? f n cs
      classMembers? f n combine (s :: members) cs
  | n + 1, combine, members, cs =>
    match classOperator? cs with
    | some (operator, cs) =>
      let left := combine (.beside .ofList members)
      let both := fun (right : Nested CharSet) =>
        ⟨operator (f.fold left.value) (f.fold right.value), max left.depth right.depth + 1⟩
      classMembers? f n both [] cs
    | none => do
      let (s, cs) ← classRange? cs
      classMembers? f n combine (⟨s, 0⟩ :: members) cs

end

/-! ### Groups -/

/-- What has been read of a group: its finished alternatives and the parts of the current one, the
last first. -/
structure Level where
  flags : Flags
  number : Option Nat := none
  done : List (Nested PatternExpr) := []
  parts : List (Nested PatternExpr) := []
  /-- Whether the last thing read can be repeated. -/
  repeatable : Bool := false

namespace Level

/-- The alternative being read. -/
def current (l : Level) : Nested PatternExpr := .beside .sequence l.parts.reverse

/-- All alternatives so far. -/
def alternatives (l : Level) : List (Nested PatternExpr) := (l.current :: l.done).reverse

/-- The group as a whole. -/
def close (l : Level) : Nested PatternExpr :=
  (Nested.beside .choice l.alternatives).within fun e =>
    match l.number with
    | some number => .group number e
    | none => e

/-- One more part that can be repeated. -/
def add (l : Level) (e : Nested PatternExpr) : Level :=
  { l with parts := e :: l.parts, repeatable := true }

/-- The level with one more part that stands for a character from a set. -/
def addSet (l : Level) (s : CharSet) : Level := l.add ⟨.ofSet s, 0⟩

/-- Other flags from here on. -/
def setFlags (l : Level) (f : Flags) : Level :=
  { l with flags := f, parts := ⟨.empty, 0⟩ :: l.parts, repeatable := false }

/-- The next alternative starts. -/
def next (l : Level) : Level :=
  { l with done := l.current :: l.done, parts := [], repeatable := false }

/-- The level with its last part replaced by a repetition of it. -/
def repeated? (l : Level) (f : PatternExpr → PatternExpr) : Option Level :=
  match l.repeatable, l.parts with
  | true, e :: es => some { l with parts := e.within f :: es }
  | _, _ => none

end Level

/-- Flags up to the `:` or `)` after them, with whether it was a `:` and the rest. Those behind a
hyphen are taken back. No flag is given twice, and a hyphen is not the last. -/
def flags? (f : Flags) (value : Bool) (given : List Char) :
    List Char → Option (Flags × Bool × List Char)
  | [] => none
  | c :: cs =>
    if c == ':' || c == ')' then
      if given.head? == some '-' || (c == ')' && given.isEmpty) then none
      else some (f, c == ':', cs)
    else if given.contains c then none
    else
      match c with
      | 'i' => flags? { f with caseless := value } value (c :: given) cs
      | 's' => flags? { f with dotAll := value } value (c :: given) cs
      | '-' => flags? f false (c :: given) cs
      | _ => none

/-- What a sign of repetition says. -/
def repetition (c : Char) (greedy : Bool) : PatternExpr → PatternExpr :=
  if c = '*' then .anyTimes greedy else if c = '+' then .someTimes greedy else .optional greedy

/-- Reads a whole text: the alternatives at its top level. The levels around the current one are
in `outer`, the innermost first, and `count` groups have been counted. -/
def alternatives? : Nat → (count : Nat) → Level → (outer : List Level) → List Char →
    Option (List (Nested PatternExpr))
  | 0, _, _, _, _ => none
  | _ + 1, _, l, [], [] => some l.alternatives
  | _ + 1, _, _, _ :: _, [] => none
  | n + 1, count, l, outer, c :: cs =>
    match c with
    | '(' =>
      match cs with
      | '?' :: cs => do
        let (f, group, cs) ← flags? l.flags true [] cs
        if group then alternatives? n count { flags := f } (l :: outer) cs
        else alternatives? n count (l.setFlags f) outer cs
      | _ => alternatives? n (count + 1) { flags := l.flags, number := some count } (l :: outer) cs
    | ')' =>
      match outer with
      | [] => none
      | parent :: outer => alternatives? n count (parent.add l.close) outer cs
    | '|' => alternatives? n count l.next outer cs
    | '*' | '+' | '?' => do
      let (greedy, cs) := match cs with
        | '?' :: cs => (false, cs)
        | _ => (true, cs)
      let l ← l.repeated? (repetition c greedy)
      alternatives? n count l outer cs
    | '.' => alternatives? n count (l.addSet l.flags.dot) outer cs
    | '[' => do
      let (s, cs) ← class? l.flags (2 * cs.length + 2) cs
      alternatives? n count (l.add ⟨.ofSet s.value, s.depth⟩) outer cs
    | '\\' => do
      let (item, cs) ← escape? cs
      alternatives? n count (l.addSet (l.flags.fold item.toSet)) outer cs
    | '\x7b' | '^' | '$' => none
    | c => alternatives? n count (l.addSet (l.flags.fold (.single c))) outer cs

/-- The expression of some alternatives. The first matches at the start of the text only. -/
def anchored? : List PatternExpr → Option PatternExpr
  | [] => none
  | [e] => some e
  | e :: elsewhere => some (.alt e (.seq (.star false (.one .any)) (.ofBranches elsewhere)))

/-- The expression a text stands for, if the text is well formed. What holds it to the start is the
first part of the first alternative. -/
def exprOfText? (text : String) : Option PatternExpr := do
  let cs := "(?:".toList ++ text.toList ++ [')']
  let es ← alternatives? (cs.length + 1) 0 { flags := {}, parts := [⟨.empty, 0⟩] } [] cs
  let e := Nested.beside anchored? es
  if nestingLimit < e.depth then none else e.value

/-- The pattern a text stands for, if the text is well formed. -/
def ofText? (text : String) : Option Pattern :=
  (exprOfText? text).map PatternExpr.toPattern

end Stencil.Pattern
