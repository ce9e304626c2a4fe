import Stencil.Pattern.Basic
import Stencil.Pattern.CharSet

/-!
# Pattern expressions

Patterns as they are written down. An expression is brought to a simple form when it is put
together, so that expressions that differ in their spelling alone are equal:

* characters in a row are one word, and a set of one character is a word too;
* sequences and alternatives are flat, and alternatives that are characters make up one set;
* what all alternatives begin with is matched once before they part, so that `a*b|a*c` is
  `a*(?:b|c)`.

The pattern of an expression has a mark at every choice. A repetition is one choice, which is met in
front of every round. If its body can be empty, the first round is a choice of its own: `x*` is then
`x+` or nothing, and the choice to go on is met behind every round.
-/

namespace Stencil

/-- A pattern as it is written down. -/
inductive PatternExpr where
  | empty
  /-- These characters, of which there is at least one. -/
  | word (chars : List Char)
  | one (set : CharSet)
  /-- An expression in parentheses, by the number of the opening one. -/
  | group (number : Nat) (body : PatternExpr)
  | seq (first second : PatternExpr)
  | alt (first second : PatternExpr)
  /-- The body or nothing; a greedy one prefers the body. -/
  | optional (greedy : Bool) (body : PatternExpr)
  | star (greedy : Bool) (body : PatternExpr)
  | plus (greedy : Bool) (body : PatternExpr)
  deriving DecidableEq, Repr, Inhabited

namespace PatternExpr

/-- A character from a set. A set of one character is a word. -/
def ofSet (s : CharSet) : PatternExpr :=
  match s.single? with
  | some c => word [c]
  | none => one s

/-! ### Sequences -/

/-- What a sequence is made of. -/
def parts : PatternExpr → List PatternExpr
  | empty => []
  | seq a b => a.parts ++ b.parts
  | e => [e]

/-- The sequence of parts. -/
def ofParts : List PatternExpr → PatternExpr
  | [] => empty
  | [e] => e
  | e :: es => seq e (ofParts es)

/-- A part in front of others. Two words that meet become one. -/
def joinPart : PatternExpr → List PatternExpr → List PatternExpr
  | word cs, word ds :: es => word (cs ++ ds) :: es
  | e, es => e :: es

/-- One after the other, in simple form. -/
def sequence (es : List PatternExpr) : PatternExpr :=
  ofParts ((es.flatMap parts).foldr joinPart [])

/-! ### Alternatives -/

/-- What alternatives there are. -/
def branches : PatternExpr → List PatternExpr
  | alt a b => a.branches ++ b.branches
  | e => [e]

/-- The choice between alternatives. -/
def ofBranches : List PatternExpr → PatternExpr
  | [] => one .empty
  | [e] => e
  | e :: es => alt e (ofBranches es)

/-- The character an expression stands for, if it is a word of just one. -/
def letter? : PatternExpr → Option Char
  | word [c] => some c
  | _ => none

/-- The set of an expression that stands for a character from a set. -/
def set? : PatternExpr → Option CharSet
  | one s => some s
  | _ => none

/-- The characters that some alternatives stand for, if all of them are single characters or all of
them are sets. -/
def setOf? (bs : List PatternExpr) : Option CharSet :=
  ((bs.mapM letter?).map fun cs => CharSet.ofList (cs.map .single)) <|>
    (bs.mapM set?).map CharSet.ofList

/-- What both lists begin with. -/
def commonStart : List PatternExpr → List PatternExpr → List PatternExpr
  | a :: as, b :: bs => if a = b then a :: commonStart as bs else []
  | _, _ => []

/-- What all of some sequences begin with, if each of them has at least two parts. -/
def sharedStart : List (List PatternExpr) → List PatternExpr
  | [] => []
  | ps :: more =>
    if (ps :: more).all (2 ≤ ·.length) then more.foldl commonStart ps else []

/-- The choice between some alternatives in simple form. Characters make up one set, and a shared
start goes in front; what is behind it is treated alike, at most `steps` times. -/
def simplify : (steps : Nat) → List PatternExpr → PatternExpr
  | 0, es => ofBranches es
  | steps + 1, es =>
    match es.flatMap branches with
    | [b] => b
    | bs =>
      match setOf? bs with
      | some s => ofSet s
      | none =>
        match sharedStart (bs.map parts) with
        | [] => ofBranches bs
        | start =>
          sequence (start ++ [simplify steps (bs.map fun b => ofParts (b.parts.drop start.length))])

/-- One of them, in simple form. -/
def choice (es : List PatternExpr) : PatternExpr :=
  simplify (es.foldr (fun e n => e.parts.length + n) 1) es

/-! ### Repetitions -/

/-- Whether an expression describes the empty text and no other. -/
def isVoid : PatternExpr → Bool
  | empty => true
  | word _ | one _ | star _ _ | plus _ _ => false
  | group _ e | optional _ e => e.isVoid
  | seq a b | alt a b => a.isVoid && b.isVoid

/-- Any number of rounds. One round does for a body that is void. -/
def anyTimes (greedy : Bool) (e : PatternExpr) : PatternExpr :=
  if e.isVoid then optional greedy e else star greedy e

/-- At least one round. A body that is void is its own repetition. -/
def someTimes (greedy : Bool) (e : PatternExpr) : PatternExpr :=
  if e.isVoid then e else plus greedy e

/-! ### Patterns -/

/-- The expression may match nothing. -/
def nullable : PatternExpr → Bool
  | empty | optional _ _ | star _ _ => true
  | word _ | one _ => false
  | group _ e | plus _ e => e.nullable
  | seq a b => a.nullable && b.nullable
  | alt a b => a.nullable || b.nullable

/-- A pattern or nothing, with a mark in front of the choice. -/
def orNothing (greedy : Bool) (mark : Nat) (p : Pattern) : Pattern :=
  .seq (.once mark) (if greedy then .alt p .empty else .alt .empty p)

/-- Rounds of a pattern, with a mark in front of the choice to go on. -/
def loop (greedy : Bool) (mark : Nat) (p : Pattern) : Pattern :=
  .seq (.once mark) (.star greedy (.seq p (.once mark)))

/-- The pattern of an expression, with marks from `mark` on, and the next mark. -/
def marked : PatternExpr → (mark : Nat) → Pattern × Nat
  | empty, mark => (.empty, mark)
  | word cs, mark => (.all (cs.map fun c => .one (· == c)), mark)
  | one s, mark => (.one s.contains, mark)
  | group _ e, mark => e.marked mark
  | seq a b, mark =>
    let (p, mark) := a.marked mark
    let (q, mark) := b.marked mark
    (.seq p q, mark)
  | alt a b, mark =>
    let (p, next) := a.marked (mark + 1)
    let (q, next) := b.marked next
    (.seq (.once mark) (.alt p q), next)
  | optional greedy e, mark =>
    let (p, next) := e.marked (mark + 1)
    (orNothing greedy mark p, next)
  | plus greedy e, mark =>
    let (p, next) := e.marked (mark + 1)
    (.seq p (loop greedy mark p), next)
  | star greedy e, mark =>
    let (p, next) := e.marked (mark + 2)
    if e.nullable then (orNothing greedy mark (.seq p (loop greedy (mark + 1) p)), next)
    else (loop greedy mark p, next)

/-- The pattern of an expression. -/
def toPattern (e : PatternExpr) : Pattern := (e.marked 0).1

end PatternExpr

end Stencil
