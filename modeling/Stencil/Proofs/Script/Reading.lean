import Stencil.Script.Language
import Stencil.Proofs.Lexing.Hindsight
import Stencil.Proofs.Lexing.Mirroring
import Stencil.Proofs.Lexing.Timing

/-!
# What scripts are read from

`Script.Reads d p s l` says that the text `s`, which starts at the place `p`, consists of the tokens and
comments of the list `l` and of nothing else. Words, operators, numbers and blanks are kept as they are
in the text; quotes and brackets go, with the blanks around brackets; comments leave nothing.

In hindsight, what a run has ahead of it is the rest of the tokens that are open, and the tokens behind
them (`Rest`). Every rule adds what it moves past to this (`Phase.step`), so **a script is read from its
source** (`reads_of_tokenize`).
-/

namespace Stencil

variable {d d' e : Document} {other quote : Char} {k : Kind} {s t : List Char} {us : List OpenToken}
  {u : OpenToken} {bracket path source : String}

namespace Script

open Document

/-! ### Texts of tokens -/

def GoesOn (a b : Char) : Prop := ¬ (a = '*' ∧ b = '/')

/-- A comment goes to the first `*/`, or stays in its line. -/
inductive IsComment : List Char → Prop where
  | long {body : List Char} : body.IsChain GoesOn → IsComment ('/' :: '*' :: (body ++ ['*', '/']))
  | line {body : List Char} : '\n' ∉ body → IsComment ('/' :: '/' :: body)

def operatorChars : List Char := ";,=?:|^&!<>*%~.+-/".toList

inductive Worded : Kind → List Char → Prop where
  | keyword {s : List Char} : String.ofList s ∈ keywords → Worded .keyword s
  | identifier {c : Char} {s : List Char} : isNameStart c = true → (∀ x ∈ s, isNameChar x = true) →
      Worded .identifier (c :: s)
  | number {c : Char} {s : List Char} : c.isDigit = true →
      (∀ x ∈ s, (x.isAlphanum || x == '_' || x == '.') = true) → Worded .number (c :: s)
  | operator {before after : List Char} {c : Char} : (∀ x ∈ before, isPadding x = true) →
      c ∈ operatorChars → (∀ x ∈ after, isPadding x = true) →
      Worded .operator (before ++ c :: after)
  | blank {s : List Char} : s ≠ [] → (∀ x ∈ s, Text.isBlank x = true) → Worded .scriptSpace s
  | regex {before body flags : List Char} : (∀ x ∈ before, Text.isBlank x = true) →
      (∀ x ∈ flags, ('a' ≤ x && x ≤ 'z') = true) →
      Worded .regex (before ++ '/' :: (body ++ '/' :: flags))

/-- The text between quotes, and what is kept of it: the other quote needs no backslash. -/
inductive Quoted (quote other : Char) : (written kept : List Char) → Prop where
  | nil : Quoted quote other [] []
  | other {s t : List Char} : Quoted quote other s t → Quoted quote other (s ++ ['\\', other]) (t ++ [other])
  | escaped {s t : List Char} {c : Char} : Quoted quote other s t → c ≠ other →
      Quoted quote other (s ++ ['\\', c]) (t ++ ['\\', c])
  | plain {s t u : List Char} : Quoted quote other s t → (∀ c ∈ u, c ≠ quote ∧ c ≠ '\\') →
      Quoted quote other (s ++ u) (t ++ u)

/-- The quotes of a kind of string: its own and the other one. -/
inductive Quotes : Kind → Char → Char → Prop where
  | double : Quotes .doubleQuoted '"' '\''
  | single : Quotes .singleQuoted '\'' '"'

/-- An opening bracket of a kind of list with the blanks around it. -/
structure Opening (k : Kind) (s : List Char) : Prop where
  bracketed : isBracketed k = true
  eq : ∃ before after, s = before ++ (k.opener.toList ++ after) ∧
    (∀ x ∈ before, Text.isBlank x = true) ∧ ∀ x ∈ after, Text.isBlank x = true

def Closing (s : List Char) : Prop :=
  ∃ before bracket, s = before ++ [bracket] ∧ (∀ x ∈ before, Text.isBlank x = true) ∧
    bracket ∈ ['\x7d', ')', ']']

/-- The branch of a token that holds others, comments left out. -/
abbrev listBranch (l : List (Option NodeId)) : Branch := l.reduceOption.map .node

/-- The text that tokens and comments are read from. A comment is an entry without a node. -/
inductive Reads (d : Document) : Place → List Char → List (Option NodeId) → Prop where
  | nil {p : Place} : Reads d p [] []
  | comment {p : Place} {s t : List Char} {l : List (Option NodeId)} : IsComment s →
      Reads d (p.advance s) t l → Reads d p (s ++ t) (none :: l)
  | word {p : Place} {s t : List Char} {x : NodeId} {l : List (Option NodeId)} :
      Worded (d.kind x) s → d.place x = p → d.branches x = [textBranch s] →
      Reads d (p.advance s) t l → Reads d p (s ++ t) (some x :: l)
  | quoted {p : Place} {written kept s t : List Char} {quote other : Char} {x : NodeId}
      {l : List (Option NodeId)} : Quotes (d.kind x) quote other → Quoted quote other written kept →
      s = quote :: (written ++ [quote]) → d.place x = p → d.branches x = [textBranch kept] →
      Reads d (p.advance s) t l → Reads d p (s ++ t) (some x :: l)
  | bracketed {p : Place} {opening inner closing s t : List Char} {x : NodeId}
      {l m : List (Option NodeId)} : Opening (d.kind x) opening → Closing closing →
      s = opening ++ (inner ++ closing) → d.place x = p → d.branches x = [listBranch m] →
      Reads d (p.advance opening) inner m → Reads d (p.advance s) t l →
      Reads d p (s ++ t) (some x :: l)

variable {p : Place} {l m : List (Option NodeId)}
  {x : NodeId}

theorem Reads.split (h : Reads d p s (l ++ m)) : ∃ t u, s = t ++ u ∧ Reads d p t l ∧
    Reads d (p.advance t) u m := by
  induction l generalizing p s with
  | nil => exact ⟨[], s, rfl, .nil, h⟩
  | cons f l ih =>
    rw [List.cons_append] at h
    cases h with
    | comment hc h =>
      obtain ⟨t, u, rfl, ht, hu⟩ := ih h
      refine ⟨_, u, (List.append_assoc ..).symm, .comment hc ht, ?_⟩
      rwa [Place.advance_append]
    | word hw hp hb h =>
      obtain ⟨t, u, rfl, ht, hu⟩ := ih h
      refine ⟨_, u, (List.append_assoc ..).symm, .word hw hp hb ht, ?_⟩
      rwa [Place.advance_append]
    | quoted hk hq hs hp hb h =>
      obtain ⟨t, u, rfl, ht, hu⟩ := ih h
      refine ⟨_, u, (List.append_assoc ..).symm, .quoted hk hq hs hp hb ht, ?_⟩
      rwa [Place.advance_append]
    | bracketed ho hc hs hp hb hinner h =>
      obtain ⟨t, u, rfl, ht, hu⟩ := ih h
      refine ⟨_, u, (List.append_assoc ..).symm, .bracketed ho hc hs hp hb hinner ht, ?_⟩
      rwa [Place.advance_append]

theorem nodes_listBranch (l : List (Option NodeId)) : Branch.nodes (listBranch l) = l.reduceOption := by
  rw [Branch.nodes, List.filterMap_map]
  exact List.filterMap_some

/-! ### What lies ahead -/

/-- The text ahead of a run, where `e` is the document in the end: the rest of the tokens that are open,
and what is behind them. -/
inductive Rest (e : Document) : Place → Pile → List Char → Prop where
  | outside {p : Place} {out : Branch} {s : List Char} {l : List (Option NodeId)} :
      e.branches root = [out.reverse ++ listBranch l] → Reads e p s l → Rest e p ⟨[], out⟩ s
  | bracket {p : Place} {x : NodeId} {b out : Branch} {opened : List (NodeId × Branch)}
      {inner closing s : List Char} {l : List (Option NodeId)} :
      e.branches x = [b.reverse ++ listBranch l] → Reads e p inner l → Closing closing →
      Rest e (p.advance (inner ++ closing)) (Pile.add ⟨opened, out⟩ (.node x)) s →
      Rest e p ⟨(x, b) :: opened, out⟩ (inner ++ (closing ++ s))

variable {q : Pile}

theorem Rest.comment (hs : IsComment s) (h : Rest e (p.advance s) q t) : Rest e p q (s ++ t) := by
  cases h with
  | outside hb h => exact .outside (l := none :: _) hb (.comment hs h)
  | bracket hb h hc hrest =>
    rw [← List.append_assoc]
    refine .bracket (l := none :: _) hb (.comment hs h) hc ?_
    rwa [List.append_assoc, Place.advance_append]

theorem Rest.token (hx : ∀ {t l}, Reads e (p.advance s) t l → Reads e p (s ++ t) (some x :: l))
    (h : Rest e (p.advance s) (q.add (.node x)) t) : Rest e p q (s ++ t) := by
  obtain ⟨_ | ⟨⟨y, b⟩, opened⟩, out⟩ := q
  · cases h with
    | outside hb h => exact .outside (l := some x :: _) (by simpa [Branch.stack, listBranch] using hb) (hx h)
  · cases h with
    | bracket hb h hc hrest =>
      rw [← List.append_assoc]
      refine .bracket (l := some x :: _) (by simpa [Branch.stack, listBranch] using hb) (hx h) hc ?_
      rwa [List.append_assoc, Place.advance_append]

/-- The text ahead ends the innermost token, which has no tokens in it. What is kept of this text is related
to it by `Q`. -/
inductive Ending (e : Document) (Q : List Char → List Char → Prop) : Place → Pile → List Char → Prop where
  | mk {p : Place} {x : NodeId} {b out : Branch} {opened : List (NodeId × Branch)} {written kept t : List Char} :
      (∀ s, b = textBranch s → e.branches x = [textBranch (s ++ kept)]) → Q written kept →
      Rest e (p.advance written) (Pile.add ⟨opened, out⟩ (.node x)) t →
      Ending e Q p ⟨(x, b) :: opened, out⟩ (written ++ t)

def InQuotes (quote other : Char) (written kept : List Char) : Prop :=
  ∃ s, written = s ++ [quote] ∧ Quoted quote other s kept

def InRegex (written kept : List Char) : Prop :=
  kept = written ∧ ∃ body flags, written = body ++ '/' :: flags ∧
    ∀ x ∈ flags, ('a' ≤ x && x ≤ 'z') = true

/-- The text ahead, by the states. -/
def Phase (e : Document) (c : Point LexState) : Prop :=
  match c.states with
  | .longComment :: _ => ∃ body t, c.ahead = body ++ '*' :: '/' :: t ∧ body.IsChain GoesOn ∧
      Rest e (c.place.advance (body ++ ['*', '/'])) c.pile t
  | .lineComment :: _ => ∃ body t, c.ahead = body ++ t ∧ '\n' ∉ body ∧ Rest e (c.place.advance body) c.pile t
  | .doubleQuoted :: _ => Ending e (InQuotes '"' '\'') c.place c.pile c.ahead
  | .singleQuoted :: _ => Ending e (InQuotes '\'' '"') c.place c.pile c.ahead
  | .regex :: _ => Ending e InRegex c.place c.pile c.ahead
  | _ => Rest e c.place c.pile c.ahead

open Pattern

variable {rule : Rule LexState} {Q Q' : List Char → List Char → Prop} {states : List LexState}
  {state : LexState}

/-! ### What the rules match -/

theorem opening_of_describes (hk : isBracketed k = true)
    (hb : k.opener = bracket) (h : (openBracket bracket).Describes s) : Opening k s := by
  obtain ⟨before, _, rfl, hbef, h⟩ := describes_cons h
  obtain ⟨_, after, rfl, hlit, hafter⟩ := describes_cons h
  refine ⟨hk, before, after, ?_, describes_many hbef, describes_many hafter⟩
  rw [describes_lit hlit, hb]

theorem closing_of_describes {c : Char} (hb : bracket.toList = [c])
    (hc : c ∈ ['\x7d', ')', ']']) (h : (closeBracket bracket).Describes s) : Closing s := by
  obtain ⟨before, _, rfl, hbef, h⟩ := describes_cons h
  refine ⟨before, c, ?_, describes_many hbef, hc⟩
  rw [describes_lit h, hb]

theorem worded_operator {operator : Pattern}
    (ho : ∀ {t}, operator.Describes t → ∃ c ∈ operatorChars, t = [c])
    (h : (padded operator).Describes s) : Worded .operator s := by
  obtain ⟨before, _, rfl, hbef, h⟩ := describes_cons h
  obtain ⟨_, after, rfl, hop, hafter⟩ := describes_cons h
  obtain ⟨c, hc, rfl⟩ := ho hop
  exact .operator (describes_many hbef) hc (describes_many hafter)

theorem worded_keyword (h : (first (keywords.map lit)).Describes s) : Worded .keyword s := by
  obtain ⟨p, hp, h⟩ := describes_first h
  obtain ⟨w, hw, rfl⟩ := List.mem_map.mp hp
  refine .keyword ?_
  rwa [describes_lit h, String.ofList_toList]

theorem worded_identifier (h : (all [one isNameStart, many (one isNameChar)]).Describes s) :
    Worded .identifier s := by
  obtain ⟨_, rest, rfl, hfirst, hrest⟩ := describes_cons h
  obtain ⟨c, rfl, hc⟩ := describes_one hfirst
  exact .identifier hc (describes_many hrest)

theorem worded_number (h : (all [one Char.isDigit,
    many (one fun c => c.isAlphanum || c == '_' || c == '.')]).Describes s) : Worded .number s := by
  obtain ⟨_, rest, rfl, hfirst, hrest⟩ := describes_cons h
  obtain ⟨c, rfl, hc⟩ := describes_one hfirst
  exact .number hc (describes_many hrest)

theorem worded_blank (h : (many1 blank).Describes s) : Worded .scriptSpace s :=
  .blank (describes_many1 h).1 (describes_many1 h).2

theorem next?_pair (hk : state = .doubleQuoted ∧ k = .doubleQuoted ∨ state = .singleQuoted ∧ k = .singleQuoted)
    (hq : Quotes k quote other) (c : Char) (rest : List Char) :
    grammar.next? state ('\\' :: c :: rest) = some (if c = other
      then .on (lit (String.ofList ['\\', other])) [.replace (String.singleton other), .shift]
      else .on Script.escaped [.record, .shift], ['\\', c]) := by
  rcases hk with ⟨rfl, rfl⟩ | ⟨rfl, rfl⟩ <;> cases hq <;> split_ifs with hc <;>
    simp [Grammar.next?, grammar, rules, Rule.fire?, Rule.on, Rule.admits, split?, match?, lit, all, run,
      any, Search.fail, Script.escaped, hc]

theorem Quoted.concat {s' t' : List Char} (h : Quoted quote other s t) (h' : Quoted quote other s' t') :
    Quoted quote other (s ++ s') (t ++ t') := by
  induction h' with
  | nil => simpa using h
  | other _ ih => simpa using ih.other
  | escaped _ hc ih => simpa using ih.escaped hc
  | plain _ hu ih => simpa using ih.plain hu

/-! ### What the rules do -/

theorem Rest.word (hw : Worded k s) (h : e.kind x = k ∧ e.place x = p ∧ e.branches x = [(textBranch s).reverse] ∧
    Rest e (p.advance s) (q.add (.node x)) t) : Rest e p q (s ++ t) := by
  obtain ⟨rfl, hplace, hb, h⟩ := h
  exact h.token fun h => .word hw hplace (by rw [hb, reverse_textBranch]) h

theorem Rest.opening (ho : Opening k s) (h : e.kind x = k ∧ e.place x = p ∧
    Rest e (p.advance s) ⟨(x, []) :: q.opened, q.out⟩ t) : Rest e p q (s ++ t) := by
  obtain ⟨rfl, hplace, h⟩ := h
  cases h with
  | @bracket _ _ _ _ _ inner closing t _ hb hinner hc h =>
    have htext : s ++ (inner ++ (closing ++ t)) = s ++ (inner ++ closing) ++ t := by simp
    rw [htext]
    refine Rest.token (x := x) (fun h => .bracketed ho hc rfl hplace hb hinner h) ?_
    rwa [Place.advance_append]

theorem Rest.closing (states : List LexState) (hc : Closing s) (h : Point.Does e s t (Phase e) (.stop :: .shift :: states.map .push) true
    ⟨[], p, q, s ++ t, x⟩) (hs : states = [] ∨ states = [.afterValue]) : Rest e p q (s ++ t) := by
  obtain ⟨_ | ⟨⟨x, b⟩, opened⟩, out⟩ := q
  · exact h.elim
  · obtain ⟨hb, h⟩ := h
    refine .bracket (l := []) (by rw [hb]; simp) .nil hc ?_
    rcases hs with rfl | rfl <;> exact h

theorem Rest.longComment {body t' : List Char} (ht : t = body ++ '*' :: '/' :: t') (hchain : body.IsChain GoesOn)
    (h : Rest e ((p.advance "/*".toList).advance (body ++ ['*', '/'])) q t') : Rest e p q ("/*".toList ++ t) := by
  have htext : "/*".toList ++ t = '/' :: '*' :: (body ++ ['*', '/']) ++ t' := by simp [ht]
  rw [htext]
  exact .comment (.long hchain) h

theorem Rest.quoted (hq : Quotes k quote other) (h : e.kind x = k ∧ e.place x = p ∧
    Ending e (InQuotes quote other) (p.advance [quote]) ⟨(x, []) :: q.opened, q.out⟩ t) :
    Rest e p q ([quote] ++ t) := by
  obtain ⟨rfl, hplace, h⟩ := h
  cases h with
  | mk hb hquoted h =>
    obtain ⟨w, rfl, hquoted⟩ := hquoted
    rw [← List.append_assoc]
    refine Rest.token (x := x) (fun h => .quoted hq hquoted rfl hplace (hb [] rfl) h) ?_
    rwa [Place.advance_append]

theorem Rest.slash (hm : (closeBracket "/").Describes s) (h : e.kind x = .regex ∧ e.place x = p ∧
    Ending e InRegex (p.advance s) ⟨(x, textBranch s) :: q.opened, q.out⟩ t) : Rest e p q (s ++ t) := by
  obtain ⟨hk, hplace, h⟩ := h
  cases h with
  | mk hb hregex h =>
    obtain ⟨rfl, body, flags, rfl, hflags⟩ := hregex
    obtain ⟨before, _, rfl, hbef, hslash⟩ := describes_cons hm
    obtain rfl := describes_lit hslash
    rw [← List.append_assoc]
    refine Rest.token (x := x) (fun h => .word ?_ hplace (hb _ rfl) h) ?_
    · rw [hk, List.append_assoc]
      exact .regex (describes_many hbef) hflags
    · rwa [Place.advance_append]

theorem Ending.record {x : List Char} (hQ : ∀ {w kept}, Q w kept → Q' (s ++ w) (x ++ kept))
    (h : Ending e Q (p.advance s) (q.add (.text (String.ofList x))) t) : Ending e Q' p q (s ++ t) := by
  obtain ⟨_ | ⟨⟨y, b⟩, opened⟩, out⟩ := q
  · cases h
  · cases h with
    | mk hb hq h =>
      rw [← List.append_assoc]
      refine .mk (fun w hw => ?_) (hQ hq) (by rwa [Place.advance_append])
      rw [hb (w ++ x) (by rw [hw]; exact stack_textBranch _ _), List.append_assoc]

theorem Ending.stop (hQ : Q s []) (h : Point.Does e s t (Phase e) [.stop] false ⟨[], p.advance s, q, t, x⟩) :
    Ending e Q p q (s ++ t) := by
  obtain ⟨_ | ⟨⟨x, b⟩, opened⟩, out⟩ := q
  · exact h.elim
  · exact .mk (fun w hw => by rw [h.1, hw, reverse_textBranch, List.append_nil]) hQ h.2

/-! ### States -/

section

variable (hm : rule.pattern.Describes s)
  (h : Point.Does e s t (Phase e) rule.actions true ⟨states, p, q, s ++ t, x⟩)
include hm h

theorem Phase.code_step (hs : states = []) (hrule : rule ∈ rules .code) : Rest e p q (s ++ t) := by
  subst hs
  simp only [rules, List.mem_cons, List.not_mem_nil, or_false] at hrule
  rcases hrule with rfl | rfl | rfl | rfl | rfl | rfl | rfl | rfl | rfl | rfl | rfl | rfl | rfl | rfl |
    rfl | rfl | rfl
  · exact .opening (k := .scope) (opening_of_describes rfl rfl hm) h
  · exact .closing [] (closing_of_describes rfl (by decide) hm) h (.inl rfl)
  · obtain rfl := describes_lit hm
    obtain ⟨body, t', ht, hchain, h⟩ := h
    exact .longComment ht hchain h
  · obtain rfl := describes_lit hm
    obtain ⟨body, t', rfl, hline, h⟩ := h
    exact .comment (s := '/' :: '/' :: body) (.line hline) h
  · obtain rfl := describes_lit hm
    exact .quoted .double h
  · obtain rfl := describes_lit hm
    exact .quoted .single h
  · exact .word (worded_keyword hm) h
  · refine .word (worded_operator (fun ht => ?_) hm) h
    obtain ⟨c, rfl, hc⟩ := describes_one ht
    refine ⟨c, ?_, rfl⟩
    have hsub : ";,=?:|^&!<>*%~.+-".toList ⊆ operatorChars := by decide
    exact hsub (List.contains_iff_mem.mp hc)
  · exact .opening (k := .parentheses) (opening_of_describes rfl rfl hm) h
  · exact .closing [.afterValue] (closing_of_describes rfl (by decide) hm) h (.inr rfl)
  · exact .opening (k := .squareBrackets) (opening_of_describes rfl rfl hm) h
  · exact .closing [.afterValue] (closing_of_describes rfl (by decide) hm) h (.inr rfl)
  · exact .word (worded_identifier hm) h
  · exact .word (worded_number hm) h
  · exact .word (worded_blank hm) h
  · exact .slash hm h
  · exact h.elim

theorem Phase.afterValue_step (hs : states = [.afterValue]) (hrule : rule ∈ rules .afterValue) :
    Rest e p q (s ++ t) := by
  subst hs
  simp only [rules, List.mem_cons, List.not_mem_nil, or_false] at hrule
  rcases hrule with rfl | rfl | rfl | rfl
  · refine .word (worded_operator (fun ht => ?_) hm) h
    exact ⟨'/', by decide, describes_lit ht⟩
  · obtain rfl := describes_lit hm
    obtain ⟨body, t', ht, hchain, h⟩ := h
    exact .longComment ht hchain h
  · obtain ⟨_, body, rfl, hslashes, hbody⟩ := describes_cons hm
    obtain rfl := describes_lit hslashes
    refine .comment (.line (show '\n' ∉ body from fun hmem => ?_)) h
    simpa using describes_many hbody _ hmem
  · exact h

theorem Phase.longComment_step {outer : List LexState} (hs : states = .longComment :: outer)
    (hout : outer = [] ∨ outer = [.afterValue]) (hrule : rule ∈ rules .longComment)
    (hnext : grammar.next? .longComment (s ++ t) = some (rule, s)) : Phase e ⟨states, p, q, s ++ t, x⟩ := by
  subst hs
  -- the comment goes on
  have hgoes : (∀ a ∈ s.getLast?, ∀ b ∈ t.head?, GoesOn a b) → s.IsChain GoesOn →
      Phase e ⟨.longComment :: outer, p.advance s, q, t, x⟩ → Phase e ⟨.longComment :: outer, p, q, s ++ t, x⟩ := by
    rintro hseam hchain ⟨body, t', rfl, hchain', h⟩
    refine ⟨s ++ body, t', (List.append_assoc ..).symm, List.isChain_append.mpr
      ⟨hchain, hchain', fun a ha b hb => hseam a ha b ?_⟩, ?_⟩
    · rw [List.head?_append, Option.mem_def.mp hb]
      rfl
    · rwa [List.append_assoc, Place.advance_append]
  simp only [rules, List.mem_cons, List.not_mem_nil, or_false] at hrule
  rcases hrule with rfl | rfl | rfl
  · obtain rfl := describes_lit hm
    refine ⟨[], t, rfl, .nil, ?_⟩
    rcases hout with rfl | rfl <;> exact h
  · have hstar : ∀ a ∈ s, a ≠ '*' := fun a ha => by simpa using (describes_many1 hm).2 a ha
    have hpairs : s.Pairwise GoesOn :=
      List.pairwise_of_forall_mem_list fun a ha b _ hend => hstar a ha hend.1
    exact hgoes (fun a ha b _ hend => hstar a (List.mem_of_getLast? ha) hend.1) hpairs.isChain h
  · obtain rfl := describes_lit hm
    refine hgoes (fun a _ b hb hend => ?_) (.singleton _) h
    -- otherwise the first rule had applied
    obtain ⟨t, rfl⟩ := List.head?_eq_some_iff.mp hb
    obtain ⟨-, rfl⟩ := hend
    simp [Grammar.next?, grammar, rules, Rule.fire?, Rule.on, Rule.admits, split?, match?, lit, Pattern.all, run] at hnext

theorem Phase.lineComment_step (hs : states = [.lineComment]) (hrule : rule ∈ rules .lineComment) :
    Phase e ⟨states, p, q, s ++ t, x⟩ := by
  subst hs
  simp only [rules, List.mem_cons, List.not_mem_nil, or_false] at hrule
  rcases hrule with rfl | rfl
  · -- the line break is a blank of its own
    obtain rfl := describes_lit hm
    refine ⟨[], _, rfl, List.not_mem_nil, .word (k := .scriptSpace) (.blank (by decide) fun x hx => ?_) h⟩
    obtain rfl := List.mem_singleton.mp hx
    rfl
  · obtain ⟨body, t', rfl, hline, h⟩ := h
    refine ⟨s ++ body, t', (List.append_assoc ..).symm, fun hmem => ?_, by rwa [Place.advance_append]⟩
    rcases List.mem_append.mp hmem with hmem | hmem
    · simpa using (describes_many1 hm).2 _ hmem
    · exact hline hmem

theorem Phase.string_step (hs : states = [state])
    (hk : state = .doubleQuoted ∧ k = .doubleQuoted ∨ state = .singleQuoted ∧ k = .singleQuoted)
    (hq : Quotes k quote other) (hrule : rule ∈ rules state)
    (hnext : grammar.next? state (s ++ t) = some (rule, s)) : Phase e ⟨states, p, q, s ++ t, x⟩ := by
  subst hs
  have hrules : rule ∈ [.on (lit (String.singleton quote)) [.pop, .shift, .stop],
      .on (lit (String.ofList ['\\', other])) [.replace (String.singleton other), .shift],
      .on Script.escaped [.record, .shift],
      .on (many1 (noneOf (String.ofList [quote, '\\']))) [.record, .shift]] := by
    rcases hk with ⟨rfl, rfl⟩ | ⟨rfl, rfl⟩ <;> cases hq <;> exact hrule
  have hphase : ∀ {p q s x}, Phase e ⟨[state], p, q, s, x⟩ ↔ Ending e (InQuotes quote other) p q s := by
    rcases hk with ⟨rfl, rfl⟩ | ⟨rfl, rfl⟩ <;> cases hq <;> exact Iff.rfl
  rw [hphase]
  -- all rules but the first add to the string
  have hadded : ∀ {w : List Char}, Quoted quote other s w →
      Phase e ⟨[state], p.advance s, q.add (.text (String.ofList w)), t, x⟩ →
      Ending e (InQuotes quote other) p q (s ++ t) := by
    intro w hquoted h
    refine .record ?_ (hphase.mp h)
    rintro _ kept ⟨v, rfl, h⟩
    exact ⟨s ++ v, (List.append_assoc ..).symm, hquoted.concat h⟩
  simp only [List.mem_cons, List.not_mem_nil, or_false] at hrules
  rcases hrules with rfl | rfl | rfl | rfl
  · refine .stop ⟨[], ?_, .nil⟩ h
    rw [describes_lit hm, String.toList_singleton]
    rfl
  · refine hadded (w := [other]) ?_ h
    rw [describes_lit hm, String.toList_ofList]
    exact .other .nil
  · refine hadded ?_ h
    obtain ⟨_, _, rfl, hslash, hany⟩ := describes_cons hm
    obtain ⟨c, rfl, -⟩ := describes_one hany
    rw [describes_lit hslash] at hnext ⊢
    refine .escaped .nil fun heq => ?_
    have hpair := (next?_pair hk hq c _).symm.trans hnext
    simp [heq, Rule.on] at hpair
  · refine hadded (.plain .nil fun c hmem => ?_) h
    simpa using (describes_many1 hm).2 c hmem

theorem Phase.regex_step (hs : states = [.regex]) (hrule : rule ∈ rules .regex) : Phase e ⟨states, p, q, s ++ t, x⟩ := by
  subst hs
  -- all rules but the last two record what they match
  have hrecorded : Ending e InRegex (p.advance s) (q.add (.text (String.ofList s))) t →
      Ending e InRegex p q (s ++ t) := by
    refine .record ?_
    rintro _ _ ⟨rfl, body, flags, rfl, hflags⟩
    exact ⟨rfl, s ++ body, flags, (List.append_assoc ..).symm, hflags⟩
  simp only [rules, List.mem_cons, List.not_mem_nil, or_false] at hrule
  rcases hrule with rfl | rfl | rfl | rfl | rfl
  · exact hrecorded h
  · exact hrecorded h
  · exact hrecorded h
  · -- the expression ends
    refine Ending.record (Q := fun w kept => w = [] ∧ kept = []) ?_ (Ending.stop (s := []) (x := x) ⟨rfl, rfl⟩ h)
    rintro _ _ ⟨rfl, rfl⟩
    obtain ⟨_, flags, rfl, hslash, hflags⟩ := describes_cons hm
    rw [describes_lit hslash, List.append_nil]
    exact ⟨rfl, [], flags, rfl, describes_many hflags⟩
  · exact h.elim

end

theorem Phase.step (hs : states ∈ knownStates) (hnext : grammar.next? (states.headD .code) (s ++ t) = some (rule, s))
    (hm : rule.pattern.Describes s) (h : Point.Does e s t (Phase e) rule.actions true ⟨states, p, q, s ++ t, x⟩) :
    Phase e ⟨states, p, q, s ++ t, x⟩ := by
  have hrule := (Grammar.next?_eq_some hnext).1
  simp only [knownStates, List.mem_cons, List.not_mem_nil, or_false] at hs
  rcases hs with rfl | rfl | rfl | rfl | rfl | rfl | rfl | rfl
  · exact Phase.code_step hm h rfl hrule
  · exact .string_step hm h rfl (.inl ⟨rfl, rfl⟩) .double hrule hnext
  · exact .string_step hm h rfl (.inr ⟨rfl, rfl⟩) .single hrule hnext
  · exact .longComment_step hm h rfl (.inl rfl) hrule hnext
  · exact .lineComment_step hm h rfl hrule
  · exact Phase.afterValue_step hm h rfl hrule
  · exact .longComment_step hm h rfl (.inr rfl) hrule hnext
  · exact .regex_step hm h rfl hrule

theorem Phase.of_completes {c : Point LexState} (h : grammar.Completes knownStates e c) : Phase e c := by
  induction h with
  | @done states p out hs hends hroot =>
    have hrest : Rest e p ⟨[], out⟩ [] := .outside (l := []) (by rw [hroot]; simp) .nil
    have hcases : ∀ states ∈ knownStates, (∀ s ∈ states, LexState.mayEnd s = true) →
        states = [] ∨ states = [.afterValue] ∨ states = [.lineComment] := by decide
    rcases hcases _ hs hends with rfl | rfl | rfl
    · exact hrest
    · exact hrest
    · exact ⟨[], [], rfl, List.not_mem_nil, hrest⟩
  | rule hs _ hnext hm hdoes _ _ _ ih => exact .step hs hnext hm (hdoes.mono fun _ heq => heq ▸ ih)

theorem reads_of_tokenize (h : grammar.tokenize [] [] root (ofSource path source) = .ok () d) :
    ∃ l, d.branches root = [listBranch l] ∧ Reads d (.startOf path) source.toList l := by
  have hrest : Rest d (.startOf path) ⟨[], []⟩ source.toList := Phase.of_completes (Grammar.completes_of_tokenize grammar_closed h)
  cases hrest with
  | outside hb h => exact ⟨_, by simpa using hb, h⟩

end Script

end Stencil
