import Std.Data.HashSet
import Stencil.Text.Blank
import Stencil.Text.CaseFold
import Stencil.Text.WordChar

/-!
# Patterns

A pattern describes texts; matching asks for a beginning of a text that it describes. Where there are
several the preferred one counts: an alternative is preferred to those after it, and a greedy repetition
prefers one more round to stopping. So `alt (lit "a") (lit "ab")` matches just the `a` of `ab`.

A search may go round in circles where the body of a repetition can be empty, and it may come to the
same position in many ways. A mark in a pattern stops it: no search passes a mark twice at the same
position. So a pattern with a mark at every choice is searched in time proportional to the text.
-/

namespace Stencil

/-- A description of texts. -/
inductive Pattern where
  | empty
  | one (accepts : Char → Bool)
  /-- The empty text, once at each position in a search. -/
  | once (mark : Nat)
  /-- A text of the first pattern followed by one of the second. -/
  | seq (first second : Pattern)
  /-- A text of either pattern, preferably of the first. -/
  | alt (first second : Pattern)
  /-- Any number of texts of the pattern, as many as possible if `greedy`, else as few. -/
  | star (greedy : Bool) (body : Pattern)

namespace Pattern

/-- The marks a search has passed, each with the position it was passed at. -/
abbrev Passed := Std.HashSet (Nat × Nat)

/-- A search goes on from the marks that have been passed, and gives what it finds and the marks
that have been passed then. -/
abbrev Search (α : Type) := Passed → Option α × Passed

/-- The search that finds nothing. -/
def Search.fail {α : Type} : Search α := fun passed => (none, passed)

/-- The second search, where the first finds nothing. -/
def Search.orElse {α : Type} (first second : Search α) : Search α := fun passed =>
  match first passed with
  | (some a, passed) => (some a, passed)
  | (none, passed) => second passed

/-- What is done with the rest of a text and the number of characters in front of it. -/
abbrev Continuation (α : Type) := Nat → List Char → Search α

/-- Goes on with `k` unless the mark has been passed at this position. -/
def pass {α : Type} (mark : Nat) (k : Continuation α) : Continuation α := fun n s passed =>
  if passed.contains (mark, n) then (none, passed) else k n s (passed.insert (mark, n))

/-- A repetition: `body` matches one more round and continues with the next, or the repetition
stops and `k` takes over. A round that consumes nothing is the last. The rounds are no more than the
characters of `bound`; the text itself is always enough. -/
def rounds {α : Type} (greedy : Bool) (body : Continuation α → Continuation α)
    (k : Continuation α) : (bound : List Char) → Continuation α
  | [], n, s => k n s
  | _ :: bound, n, s =>
    let more := body (fun m rest =>
      if m = n then k m rest else rounds greedy body k bound m rest) n s
    if greedy then more.orElse (k n s) else Search.orElse (k n s) more

/-- Hands the rest of the text after each match to `k`, the preferred match first, and answers
what `k` first accepts. -/
def run {α : Type} : Pattern → Continuation α → Continuation α
  | empty, k, n, s => k n s
  | one _, _, _, [] => Search.fail
  | one accepts, k, n, c :: s => if accepts c then k (n + 1) s else Search.fail
  | once mark, k, n, s => pass mark k n s
  | seq p q, k, n, s => p.run (q.run k) n s
  | alt p q, k, n, s => Search.orElse (p.run k n s) (q.run k n s)
  | star greedy p, k, n, s => rounds greedy (fun k => p.run k) k s n s

/-- The preferred beginning of a text that the pattern describes: its length and what follows. -/
def match? (p : Pattern) (s : List Char) : Option (Nat × List Char) :=
  (p.run (fun n rest passed => (some (n, rest), passed)) 0 s ∅).1

/-- A text cut after the preferred beginning that the pattern describes. -/
def split? (p : Pattern) (s : List Char) : Option (List Char × List Char) :=
  (p.match? s).map fun (n, rest) => (s.take n, rest)

/-- The text begins as the pattern says. -/
def starts (p : Pattern) (s : List Char) : Bool :=
  (p.match? s).isSome

/-! ### Building patterns -/

/-- One after the other. -/
def all : List Pattern → Pattern
  | [] => empty
  | [p] => p
  | p :: ps => seq p (all ps)

/-- A text of one of the patterns, the earlier ones preferred. No text, if there is none. -/
def first : List Pattern → Pattern
  | [] => one fun _ => false
  | [p] => p
  | p :: ps => alt p (first ps)

/-- Just this text. -/
def lit (s : String) : Pattern :=
  all (s.toList.map fun c => one (· == c))

/-- This text in any case. -/
def caseless (s : String) : Pattern :=
  all (s.toList.map fun c => one (Text.anyCase (· == c)))

/-- One of these characters. -/
def oneOf (s : String) : Pattern := one fun c => s.toList.contains c

/-- A character that is none of these. -/
def noneOf (s : String) : Pattern := one fun c => !s.toList.contains c

/-- Any character. -/
def any : Pattern := one fun _ => true

/-- A blank. -/
def blank : Pattern := one Text.isBlank

/-- A character of a word. -/
def wordChar : Pattern := one Text.isWordChar

/-- Any number of texts of a pattern, as many as possible. -/
def many (p : Pattern) : Pattern := star true p

/-- Once or more, greedily. -/
def many1 (p : Pattern) : Pattern := seq p (many p)

/-- Once, or not at all. -/
def optional (p : Pattern) : Pattern := alt p empty

end Pattern

end Stencil
