import Stencil.Proofs.Script.Seams

/-!
# Brackets of scripts

The brackets of a source that are outside of strings, comments and regular expressions follow from the
states of the grammar alone (`Outside`). A closing bracket closes the innermost token, whatever that has
been opened with, so they need to be nested only as if there were one kind of bracket (`Nests`), while a
token is written with the brackets of its own kind.

So **a script is accepted exactly if its brackets nest, and each closing one is written as the one that
belongs to what it closes** (`brackets_of_script`): a round bracket may be closed by a square one, and
the text changes.
-/

namespace Stencil

open Branch

variable {d : Document} {l : List NodeId} {c : Char} {bs bs' m text vs ws : List Char}
  {q : List Char × List Kind} {ks : List Kind}

namespace Script

open Document List Pattern

/-! ### Sequences of brackets -/

def partner? : Char → Option Char
  | '\x7b' => some '\x7d'
  | '(' => some ')'
  | '[' => some ']'
  | _ => none

def closingBrackets : List Char := ['\x7d', ')', ']']

def brackets : List Char := ['\x7b', '(', '['] ++ closingBrackets

def isBracket (c : Char) : Bool := brackets.contains c

/-- Every bracket is closed by the one that belongs to it. -/
inductive Matched : List Char → Prop where
  | nil : Matched []
  | pair {o c : Char} {inner rest : List Char} : partner? o = some c → Matched inner →
      Matched rest → Matched (o :: (inner ++ c :: rest))

/-- Every bracket is closed by some bracket. In the second list it is closed by the one that belongs
to it. -/
inductive Nests : List Char → List Char → Prop where
  | nil : Nests [] []
  | pair {o c k : Char} {inner inner' rest rest' : List Char} : partner? o = some k →
      c ∈ closingBrackets → Nests inner inner' → Nests rest rest' →
      Nests (o :: (inner ++ c :: rest)) (o :: (inner' ++ k :: rest'))

/-- The same from left to right, where some brackets that belong to open ones are still owed. -/
inductive Mends : List Char → List Char → List Char → Prop where
  | done : Mends [] [] []
  | opens {o k : Char} {owed bs ws : List Char} : partner? o = some k → Mends (k :: owed) bs ws →
      Mends owed (o :: bs) (o :: ws)
  | closes {c k : Char} {owed bs ws : List Char} : c ∈ closingBrackets → Mends owed bs ws →
      Mends (k :: owed) (c :: bs) (k :: ws)

section Sequences

variable {owed ws' : List Char} {o k : Char}

theorem partner?_of_closing (h : c ∈ closingBrackets) : partner? c = none := by
  simp only [closingBrackets, mem_cons, not_mem_nil, or_false] at h
  rcases h with rfl | rfl | rfl <;> rfl

theorem Nests.length_eq (h : Nests bs ws) : bs.length = ws.length := by
  induction h with
  | nil => rfl
  | pair _ _ _ _ ihinner ihrest => simp [ihinner, ihrest]

theorem closing_of_partner? (h : partner? o = some c) : c ∈ closingBrackets := by
  unfold partner? at h
  split at h <;> cases h <;> decide

theorem Nests.matched (h : Nests bs ws) (heq : bs = ws) : Matched bs := by
  induction h with
  | nil => exact .nil
  | pair ho _ hinner _ ihinner ihrest =>
    obtain ⟨hinner', htail⟩ := append_inj (List.cons.inj heq).2 hinner.length_eq
    obtain ⟨rfl, hrest'⟩ := List.cons.inj htail
    exact .pair ho (ihinner hinner') (ihrest hrest')

theorem nests_self_iff : Nests bs bs ↔ Matched bs := by
  refine ⟨fun h => h.matched rfl, fun h => ?_⟩
  induction h with
  | nil => exact .nil
  | pair ho _ _ ihinner ihrest => exact .pair ho (closing_of_partner? ho) ihinner ihrest

theorem Nests.mends (h : Nests bs ws) (h' : Mends owed bs' ws') :
    Mends owed (bs ++ bs') (ws ++ ws') := by
  induction h generalizing owed bs' ws' with
  | nil => exact h'
  | pair ho hc _ _ ihinner ihrest =>
    rw [cons_append, append_assoc, cons_append, cons_append, append_assoc, cons_append]
    exact .opens ho (ihinner (.closes hc (ihrest h')))

/-- Brackets with those that are owed in between. -/
def Closes : List Char → List Char → List Char → Prop
  | [], bs, ws => Nests bs ws
  | k :: owed, bs, ws => ∃ inner inner' c rest rest', bs = inner ++ c :: rest ∧
      ws = inner' ++ k :: rest' ∧ c ∈ closingBrackets ∧ Nests inner inner' ∧ Closes owed rest rest'

theorem Closes.pair {inner inner' : List Char} (ho : partner? o = some k) (hc : c ∈ closingBrackets)
    (hinner : Nests inner inner') (h : Closes owed bs ws) :
    Closes owed (o :: (inner ++ c :: bs)) (o :: (inner' ++ k :: ws)) := by
  cases owed with
  | nil => exact .pair ho hc hinner h
  | cons k' owed =>
    obtain ⟨inner2, inner2', c', rest, rest', rfl, rfl, hc', hinner2, hrest⟩ := h
    refine ⟨o :: (inner ++ c :: inner2), o :: (inner' ++ k :: inner2'), c', rest, rest', ?_, ?_, hc',
      .pair ho hc hinner hinner2, hrest⟩ <;> simp

theorem Mends.closes_all (h : Mends owed bs ws) : Closes owed bs ws := by
  induction h with
  | done => exact Nests.nil
  | opens ho _ ih =>
    obtain ⟨inner, inner', c, rest, rest', rfl, rfl, hc, hinner, hrest⟩ := ih
    exact .pair ho hc hinner hrest
  | closes hc _ ih => exact ⟨[], [], _, _, _, rfl, rfl, hc, .nil, ih⟩

theorem mends_nil_iff : Mends [] bs ws ↔ Nests bs ws := by
  refine ⟨Mends.closes_all, fun h => ?_⟩
  simpa using h.mends .done

theorem Mends.opened (ho : partner? o = some k) (h : Mends owed (o :: bs) ws) :
    ∃ ws', ws = o :: ws' ∧ Mends (k :: owed) bs ws' := by
  cases h with
  | opens ho' h =>
    obtain rfl := Option.some.inj (ho.symm.trans ho')
    exact ⟨_, rfl, h⟩
  | closes hc _ =>
    rw [partner?_of_closing hc] at ho
    cases ho

theorem Mends.closed (hc : c ∈ closingBrackets) (h : Mends owed (c :: bs) ws) :
    ∃ k owed' ws', owed = k :: owed' ∧ ws = k :: ws' ∧ Mends owed' bs ws' := by
  cases h with
  | opens ho _ =>
    rw [partner?_of_closing hc] at ho
    cases ho
  | closes _ h => exact ⟨_, _, _, rfl, rfl, h⟩

theorem Mends.eq (h : Mends owed bs ws) (h' : Mends owed bs ws') : ws = ws' := by
  induction h generalizing ws' with
  | done => cases h'; rfl
  | opens ho _ ih =>
    obtain ⟨vs, rfl, hvs⟩ := h'.opened ho
    rw [ih hvs]
  | closes hc _ ih =>
    obtain ⟨_, _, vs, heq, rfl, hvs⟩ := h'.closed hc
    cases heq
    rw [ih hvs]

end Sequences

/-! ### Brackets of tokens -/

def openMark (k : Kind) : List Char := if isBracketed k then k.opener.toList else []

def closeMark (k : Kind) : List Char := if isBracketed k then k.closer.toList else []

theorem exists_marks {k : Kind} (h : isBracketed k = true) :
    ∃ o c, openMark k = [o] ∧ closeMark k = [c] ∧ partner? o = some c := by
  cases k <;> simp [isBracketed] at h <;> exact ⟨_, _, rfl, rfl, rfl⟩

/-- The brackets that nodes are written with, one after the other. -/
inductive Written (d : Document) : List NodeId → List Char → Prop where
  | nil : Written d [] []
  | cons {x : NodeId} {l : List NodeId} {inner ws : List Char} : Written d (d.children x).nodes inner →
      Written d l ws → Written d (x :: l) (openMark (d.kind x) ++ inner ++ closeMark (d.kind x) ++ ws)

/-- The brackets of what a run has built: tokens that are open have been opened. -/
inductive Sofar (e : Document) : Pile → List Char → Prop where
  | outside {out : Branch} {ws : List Char} : Written e out.nodes.reverse ws → Sofar e ⟨[], out⟩ ws
  | within {x : NodeId} {b out : Branch} {opened : List (NodeId × Branch)} {ws inner : List Char} :
      Sofar e ⟨opened, out⟩ ws → Written e b.nodes.reverse inner →
      Sofar e ⟨(x, b) :: opened, out⟩ (ws ++ openMark (e.kind x) ++ inner)

theorem Written.append {l' : List NodeId} (h : Written d l ws) (h' : Written d l' vs) :
    Written d (l ++ l') (ws ++ vs) := by
  induction h with
  | nil => exact h'
  | cons hx _ _ ih =>
    rw [cons_append, append_assoc]
    exact .cons hx ih

theorem Sofar.add {f : Fragment} {p : Pile} (h : Sofar d p ws) (hf : Written d (Branch.nodes [f]) vs) :
    Sofar d (p.add f) (ws ++ vs) := by
  have hstack : ∀ b : Branch, (b.stack f).nodes.reverse = b.nodes.reverse ++ Branch.nodes [f] := fun b => by
    cases f with
    | text => rw [nodes_stack_text]; exact (append_nil _).symm
    | node => rw [nodes_stack_node, reverse_cons]; rfl
  cases h with
  | outside h => exact .outside (by rw [hstack]; exact h.append hf)
  | within h hinner =>
    rw [append_assoc]
    exact .within h (by rw [hstack]; exact hinner.append hf)

/-! ### Actions -/

/-- The bracket that an action writes, and the kinds of the tokens that are open after it. -/
def mark? : LexAction LexState → List Kind → Option (List Char × List Kind)
  | .start k, ks => some (openMark k, k :: ks)
  | .stop, k :: ks => some (closeMark k, ks)
  | .stop, [] => none
  | .fail _, _ => none
  | _, ks => some ([], ks)

def markAll? : List (LexAction LexState) → List Kind → Option (List Char × List Kind)
  | [], ks => some ([], ks)
  | a :: as, ks =>
    match mark? a ks with
    | none => none
    | some (w, ks) =>
      match markAll? as ks with
      | none => none
      | some (ws, ks) => some (w ++ ws, ks)

/-- The kinds of the tokens that are open, the innermost first. -/
def openKinds (e : Document) (p : Pile) : List Kind := p.opened.map fun t => e.kind t.1

section Actions

variable {p : Bool} {t : List Char} {as : List (LexAction LexState)} {c c' : Point LexState}

theorem openKinds_add (d : Document) (p : Pile) (f : Fragment) : openKinds d (p.add f) = openKinds d p := by
  have hmap : ∀ p, openKinds d p = (p.opened.map (·.1)).map d.kind := fun p => by simp [openKinds]
  rw [hmap, hmap, Pile.opened_add]

theorem Sofar.does (h : Sofar d c.pile ws) (hdoes : Point.Does d m t (· = c') as p c) :
    ∃ w, markAll? as (openKinds d c.pile) = some (w, openKinds d c'.pile) ∧ Sofar d c'.pile (ws ++ w) := by
  induction as generalizing c p ws with
  | nil =>
    cases hdoes
    exact ⟨[], rfl, by rwa [append_nil]⟩
  | cons a as ih =>
    have htext : ∀ s, Sofar d (c.pile.add (.text s)) ws := fun s => by simpa using h.add (f := .text s) .nil
    have hneutral : ∀ {c1 p1}, Point.Does d m t (· = c') as p1 c1 → Sofar d c1.pile ws →
        mark? a (openKinds d c.pile) = some ([], openKinds d c1.pile) →
        ∃ w, markAll? (a :: as) (openKinds d c.pile) = some (w, openKinds d c'.pile) ∧
          Sofar d c'.pile (ws ++ w) := fun hdoes h hmark => by
      obtain ⟨w, hw, h⟩ := ih h hdoes
      exact ⟨w, by simp only [markAll?, hmark, hw, nil_append], h⟩
    cases a with
    | push => exact hneutral hdoes h rfl
    | pop => exact hneutral hdoes h rfl
    | record => exact hneutral hdoes (htext _) (by rw [openKinds_add]; rfl)
    | replace => exact hneutral hdoes (htext _) (by rw [openKinds_add]; rfl)
    | shift => cases p <;> exact hneutral hdoes h rfl
    | start k =>
      obtain ⟨rfl, -, hdoes⟩ := hdoes
      obtain ⟨w, hw, h⟩ := ih (.within h .nil) hdoes
      rw [append_nil, append_assoc] at h
      rw [openKinds, map_cons] at hw
      exact ⟨_, by simp only [markAll?, mark?]; rw [openKinds, hw], h⟩
    | stop =>
      obtain ⟨states, place, ⟨opened, out⟩, ahead, size⟩ := c
      cases h with
      | outside => exact hdoes.elim
      | @within x b out opened ws inner h hinner =>
        obtain ⟨hb, hdoes⟩ := hdoes
        have hwritten : Written d [x] (openMark (d.kind x) ++ inner ++ closeMark (d.kind x) ++ []) := by
          refine .cons ?_ .nil
          rw [children_of_branches hb, nodes_reverse]
          exact hinner
        obtain ⟨w, hw, h⟩ := ih (h.add (f := .node x) hwritten) hdoes
        rw [openKinds_add] at hw
        refine ⟨closeMark (d.kind x) ++ w, ?_, by simpa using h⟩
        show markAll? (.stop :: as) (d.kind x :: openKinds d ⟨opened, out⟩) = _
        simp only [markAll?, mark?, hw]
    | fail => exact hdoes.elim

theorem tokensAfter?_of_marks (h : markAll? as ks = some q) :
    as.foldlM LexAction.tokensAfter? ks.length = some q.2.length ∧ as.any LexAction.refuses = false := by
  induction as generalizing ks q with
  | nil => cases h; exact ⟨rfl, rfl⟩
  | cons a as ih =>
    rw [markAll?] at h
    split at h
    · cases h
    · next w ks1 hmark =>
      split at h
      · cases h
      · next hmarks =>
        cases h
        obtain ⟨htokens, hrefuses⟩ := ih hmarks
        rw [foldlM_cons, any_cons, hrefuses]
        cases a with
        | stop =>
          cases ks with
          | nil => cases hmark
          | cons k ks => cases hmark; exact ⟨htokens, rfl⟩
        | fail => cases hmark
        | _ => cases hmark; exact ⟨htokens, rfl⟩

end Actions

/-! ### Rules -/

/-- The brackets in the text that a rule matches, outside of strings, comments and regular
expressions. -/
def bracketsIn : LexState → List Char → List Char
  | .code, matched => matched.filter isBracket
  | _, _ => []

/-- The tokens that are open because of a string or a regular expression. -/
def literal : List LexState → List Kind
  | [.doubleQuoted] => [.doubleQuoted]
  | [.singleQuoted] => [.singleQuoted]
  | [.regex] => [.regex]
  | _ => []

/-- What a rule does to the brackets, in given states. -/
inductive Effect (states : List LexState) (rule : Rule LexState) (m : List Char) : Prop where
  | refuses : rule.actions.any LexAction.refuses = true → Effect states rule m
  | neutral {states' : List LexState} : rule.statesAfter? states = some states' →
      bracketsIn (states.headD .code) m = [] →
      (∀ ks, markAll? rule.actions (literal states ++ ks) = some ([], literal states' ++ ks)) →
      Effect states rule m
  | opens {states' : List LexState} {k : Kind} : rule.statesAfter? states = some states' →
      isBracketed k = true → bracketsIn (states.headD .code) m = openMark k →
      (∀ ks, markAll? rule.actions (literal states ++ ks) =
        some (openMark k, literal states' ++ k :: ks)) → Effect states rule m
  | closes {states' : List LexState} {c : Char} : rule.statesAfter? states = some states' →
      c ∈ closingBrackets → bracketsIn (states.headD .code) m = [c] →
      (∀ k ks, markAll? rule.actions (literal states ++ k :: ks) =
        some (closeMark k, literal states' ++ ks)) →
      markAll? rule.actions (literal states) = none → Effect states rule m

section Rules

variable {states : List LexState} {rule : Rule LexState} {k : Kind}

theorem filter_isBracket (test : Char → Bool) (htest : (brackets.all fun b => !test b) = true)
    (h : ∀ x ∈ m, test x = true) : m.filter isBracket = [] := by
  refine filter_eq_nil_iff.mpr fun x hx hb => ?_
  have := all_eq_true.mp htest x (contains_iff_mem.mp hb)
  rw [h x hx] at this
  cases this

theorem filter_blanks (h : ∀ x ∈ m, Text.isBlank x = true) : m.filter isBracket = [] :=
  filter_isBracket Text.isBlank (by decide +kernel) h

theorem Opening.filter_eq (h : Opening k m) : m.filter isBracket = openMark k := by
  obtain ⟨before, after, rfl, hbef, hafter⟩ := h.eq
  have hb := h.bracketed
  rw [filter_append, filter_append, filter_blanks hbef, filter_blanks hafter,
    nil_append, append_nil, openMark, if_pos hb]
  cases k <;> simp [isBracketed] at hb <;> rfl

theorem Closing.filter_eq (h : Closing m) : ∃ c ∈ closingBrackets, m.filter isBracket = [c] := by
  obtain ⟨before, c, rfl, hbef, hc⟩ := h
  refine ⟨c, hc, ?_⟩
  have hbracket : isBracket c = true :=
    contains_iff_mem.mpr (mem_append_right _ hc)
  rw [filter_append, filter_blanks hbef]
  simp [hbracket]

theorem Worded.filter_eq (h : Worded k m) (hk : k ≠ .regex) : m.filter isBracket = [] := by
  cases h with
  | keyword hw =>
    exact filter_isBracket isNameChar (by decide +kernel) fun x hx =>
      isNameChar_of_keyword hw (by rwa [String.toList_ofList])
  | identifier hc hall =>
    refine filter_isBracket isNameChar (by decide +kernel) (forall_mem_cons.mpr ⟨?_, hall⟩)
    simp only [isNameStart, isNameChar, Char.isAlphanum, Bool.or_eq_true] at hc ⊢
    tauto
  | number hc hall =>
    refine filter_isBracket (fun x => x.isAlphanum || x == '_' || x == '.') (by decide +kernel)
      (forall_mem_cons.mpr ⟨?_, hall⟩)
    simp only [Char.isAlphanum, hc, Bool.or_true, Bool.true_or]
  | @operator before after c hbef hc hafter =>
    have hblank : ∀ {u : List Char}, (∀ x ∈ u, isPadding x = true) → u.filter isBracket = [] :=
      fun hu => filter_blanks fun x hx => isBlank_of_isPadding (hu x hx)
    have hmark : [c].filter isBracket = [] :=
      filter_isBracket operatorChars.contains (by decide +kernel) (by simpa using hc)
    rw [append_cons, filter_append, filter_append, hblank hbef, hmark, hblank hafter]
    rfl
  | blank _ hall => exact filter_blanks hall
  | regex => exact absurd rfl hk

theorem Effect.of_opening (h : Opening k m)
    (hrule : rule.actions = [.start k, .shift]) : Effect [] rule m := by
  have hstates : rule.statesAfter? [] = some [] := by rw [Rule.statesAfter?, hrule]; rfl
  refine .opens hstates h.bracketed h.filter_eq fun ks => ?_
  rw [hrule]
  simp [markAll?, mark?, literal]

theorem Effect.of_closing (states' : List LexState) (h : Closing m)
    (hrule : rule.actions = .stop :: .shift :: states'.map .push)
    (hstates : states' = [] ∨ states' = [.afterValue]) : Effect [] rule m := by
  obtain ⟨c, hc, hf⟩ := h.filter_eq
  have hafter : rule.statesAfter? [] = some states' := by
    rcases hstates with rfl | rfl <;> rw [Rule.statesAfter?, hrule] <;> rfl
  refine .closes hafter hc hf (fun k ks => ?_) ?_ <;>
    rcases hstates with rfl | rfl <;> simp [hrule, markAll?, mark?, literal]

theorem effect_code (hrule : rule ∈ rules .code) (hm : rule.pattern.Describes m) :
    Effect [] rule m := by
  simp only [rules, mem_cons, not_mem_nil, or_false] at hrule
  rcases hrule with rfl | rfl | rfl | rfl | rfl | rfl | rfl | rfl | rfl | rfl | rfl | rfl | rfl | rfl |
    rfl | rfl | rfl
  · exact .of_opening (opening_of_describes (k := .scope) rfl rfl hm) rfl
  · exact .of_closing [] (closing_of_describes rfl (by decide) hm) rfl (.inl rfl)
  · exact .neutral rfl (by rw [describes_lit hm]; decide +kernel) fun ks => rfl
  · exact .neutral rfl (by rw [describes_lit hm]; decide +kernel) fun ks => rfl
  · exact .neutral rfl (by rw [describes_lit hm]; decide +kernel) fun ks => rfl
  · exact .neutral rfl (by rw [describes_lit hm]; decide +kernel) fun ks => rfl
  · exact .neutral rfl ((worded_keyword hm).filter_eq (by decide)) fun ks => rfl
  · refine .neutral rfl ((worded_operator (fun ht => ?_) hm).filter_eq (by decide)) fun ks => rfl
    obtain ⟨c, rfl, hc⟩ := describes_one ht
    have hsub : ";,=?:|^&!<>*%~.+-".toList ⊆ operatorChars := by decide
    exact ⟨c, hsub (contains_iff_mem.mp hc), rfl⟩
  · exact .of_opening (opening_of_describes (k := .parentheses) rfl rfl hm) rfl
  · exact .of_closing [.afterValue] (closing_of_describes rfl (by decide) hm) rfl (.inr rfl)
  · exact .of_opening (opening_of_describes (k := .squareBrackets) rfl rfl hm) rfl
  · exact .of_closing [.afterValue] (closing_of_describes rfl (by decide) hm) rfl (.inr rfl)
  · exact .neutral rfl ((worded_identifier hm).filter_eq (by decide)) fun ks => rfl
  · exact .neutral rfl ((worded_number hm).filter_eq (by decide)) fun ks => rfl
  · exact .neutral rfl ((worded_blank hm).filter_eq (by decide)) fun ks => rfl
  · refine .neutral rfl ?_ fun ks => rfl
    obtain ⟨before, _, rfl, hbef, hslash⟩ := describes_cons hm
    have hnone : "/".toList.filter isBracket = [] := by decide +kernel
    rw [describes_lit hslash]
    show (before ++ "/".toList).filter isBracket = []
    rw [filter_append, filter_blanks (describes_many hbef), hnone]
    rfl
  · exact .refuses rfl

theorem effect (hs : states ∈ knownStates) (hrule : rule ∈ rules (states.headD .code))
    (hm : rule.pattern.Describes m) : Effect states rule m := by
  simp only [knownStates, mem_cons, not_mem_nil, or_false] at hs
  rcases hs with rfl | rfl | rfl | rfl | rfl | rfl | rfl | rfl
  · exact effect_code hrule hm
  all_goals
    simp only [headD_cons, rules, mem_cons, not_mem_nil, or_false] at hrule
  · rcases hrule with rfl | rfl | rfl | rfl <;> exact .neutral rfl rfl fun ks => rfl
  · rcases hrule with rfl | rfl | rfl | rfl <;> exact .neutral rfl rfl fun ks => rfl
  · rcases hrule with rfl | rfl | rfl <;> exact .neutral rfl rfl fun ks => rfl
  · rcases hrule with rfl | rfl <;> exact .neutral rfl rfl fun ks => rfl
  · rcases hrule with rfl | rfl | rfl | rfl <;> exact .neutral rfl rfl fun ks => rfl
  · rcases hrule with rfl | rfl | rfl <;> exact .neutral rfl rfl fun ks => rfl
  · rcases hrule with rfl | rfl | rfl | rfl | rfl
    · exact .neutral rfl rfl fun ks => rfl
    · exact .neutral rfl rfl fun ks => rfl
    · exact .neutral rfl rfl fun ks => rfl
    · exact .neutral rfl rfl fun ks => rfl
    · exact .refuses rfl

end Rules

/-! ### Runs -/

/-- The brackets of a text outside of strings, comments and regular expressions, where the text is
read from given states on and may end. -/
inductive Outside : List LexState → List Char → List Char → Prop where
  | done {states : List LexState} : (∀ s ∈ states, s.mayEnd = true) → Outside states [] []
  | rule {states states' : List LexState} {text matched bs : List Char} {rule : Rule LexState} :
      text ≠ [] → grammar.next? (states.headD .code) text = some (rule, matched) →
      rule.actions.any LexAction.refuses = false → rule.statesAfter? states = some states' →
      Outside states' (if rule.actions.any LexAction.shifts then text.drop matched.length else text) bs →
      Outside states text (bracketsIn (states.headD .code) matched ++ bs)

theorem Outside.eq {states : List LexState} (h : Outside states text bs)
    (h' : Outside states text bs') : bs = bs' := by
  induction h generalizing bs' with
  | done =>
    cases h' with
    | done => rfl
    | rule hne => exact absurd rfl hne
  | rule hne hnext _ hstates _ ih =>
    cases h' with
    | done => exact absurd rfl hne
    | rule _ hnext' _ hstates' h' =>
      rw [hnext] at hnext'
      cases hnext'
      rw [hstates] at hstates'
      cases hstates'
      rw [ih h']

/-- The brackets that belong to lists, the innermost first. -/
def owedMarks (ks : List Kind) : List Char := ks.flatMap closeMark

theorem owedMarks_cons {k : Kind} (ks : List Kind) (h : isBracketed k = true) : ∃ o c, openMark k = [o] ∧
    closeMark k = [c] ∧ partner? o = some c ∧ owedMarks (k :: ks) = c :: owedMarks ks := by
  obtain ⟨o, c, ho, hc, hpartner⟩ := exists_marks h
  exact ⟨o, c, ho, hc, hpartner, by rw [owedMarks, flatMap_cons, hc]; rfl⟩

/-! ### Sources -/

section Sources

variable {path source : String}

theorem written_of_completes {c : Point LexState} (h : grammar.Completes knownStates d c)
    (hkinds : openKinds d c.pile = literal c.states ++ ks) (hks : ∀ k ∈ ks, isBracketed k = true)
    (hsofar : Sofar d c.pile ws) : ∃ bs vs, Outside c.states c.ahead bs ∧ Mends (owedMarks ks) bs vs ∧
      Written d (d.children root).nodes (ws ++ vs) := by
  induction h generalizing ks ws with
  | done _ hends hroot =>
    obtain ⟨-, rfl⟩ := append_eq_nil_iff.mp hkinds.symm
    cases hsofar with
    | outside h =>
      refine ⟨[], [], .done hends, .done, ?_⟩
      rwa [children_of_branches hroot, nodes_reverse, append_nil]
  | @rule states place pile size rule m t c hs hne hnext hm hdoes hafter hahead _ ih =>
    obtain ⟨w, hmarks, hsofar'⟩ := hsofar.does hdoes
    have hgo : ∀ {ks'}, openKinds d c.pile = literal c.states ++ ks' → (∀ k ∈ ks', isBracketed k = true) →
        (∀ {bs vs}, Mends (owedMarks ks') bs vs →
          Mends (owedMarks ks) (bracketsIn (states.headD .code) m ++ bs) (w ++ vs)) →
        ∃ bs vs, Outside states (m ++ t) bs ∧ Mends (owedMarks ks) bs vs ∧
          Written d (d.children root).nodes (ws ++ vs) := fun hkinds' hks' hmends => by
      obtain ⟨bs, vs, hout, hvs, hwritten⟩ := ih hkinds' hks' hsofar'
      rw [append_assoc] at hwritten
      refine ⟨_, w ++ vs, .rule hne hnext (tokensAfter?_of_marks hmarks).2 hafter ?_, hmends hvs, hwritten⟩
      rwa [hahead] at hout
    rw [hkinds] at hmarks
    cases effect hs (Grammar.next?_eq_some hnext).1 hm with
    | refuses hrefuses => rw [(tokensAfter?_of_marks hmarks).2] at hrefuses; cases hrefuses
    | neutral hafter' hb hmark =>
      cases hafter'.symm.trans hafter
      obtain ⟨rfl, hkinds'⟩ := Prod.mk.inj (Option.some.inj (hmarks.symm.trans (hmark ks)))
      exact hgo hkinds' hks fun h => by rwa [hb]
    | @opens _ k hafter' hk hb hmark =>
      cases hafter'.symm.trans hafter
      obtain ⟨rfl, hkinds'⟩ := Prod.mk.inj (Option.some.inj (hmarks.symm.trans (hmark ks)))
      obtain ⟨o, c, ho, -, hpartner, howed⟩ := owedMarks_cons ks hk
      refine hgo hkinds' (forall_mem_cons.mpr ⟨hk, hks⟩) fun h => ?_
      rw [hb, ho]
      exact .opens hpartner (howed ▸ h)
    | @closes _ c hafter' hc hb hmark hnone =>
      cases hafter'.symm.trans hafter
      cases ks with
      | nil =>
        rw [append_nil, hnone] at hmarks
        cases hmarks
      | cons k ks =>
        obtain ⟨hk, hks⟩ := forall_mem_cons.mp hks
        obtain ⟨rfl, hkinds'⟩ := Prod.mk.inj (Option.some.inj (hmarks.symm.trans (hmark k ks)))
        obtain ⟨-, c', -, hc', -, howed⟩ := owedMarks_cons ks hk
        refine hgo hkinds' hks fun h => ?_
        rw [hb, hc', howed]
        exact .closes hc h

theorem written_of_tokenize (h : grammar.tokenize [] [] root (ofSource path source) = .ok () d) :
    ∃ bs ws, Outside [] source.toList bs ∧ Nests bs ws ∧ Written d (d.children root).nodes ws := by
  obtain ⟨bs, ws, hout, hmends, hwritten⟩ := written_of_completes
    (Grammar.completes_of_tokenize grammar_closed h) rfl
    (fun _ (hk : _ ∈ ([] : List Kind)) => absurd hk not_mem_nil) (.outside .nil)
  exact ⟨bs, ws, hout, mends_nil_iff.mp hmends, hwritten⟩

theorem Outside.accepts {states : List LexState} (hout : Outside states text bs) (hs : states ∈ knownStates)
    (hks : ∀ k ∈ ks, isBracketed k = true) (hmends : Mends (owedMarks ks) bs vs) :
    grammar.Accepts states (literal states ++ ks).length text := by
  induction hout generalizing ks vs with
  | done hends =>
    have hliteral : ∀ states ∈ knownStates, (∀ s ∈ states, s.mayEnd = true) → literal states = [] := by
      decide
    have hks : ks = [] := by
      cases ks with
      | nil => rfl
      | cons k ks =>
        obtain ⟨-, c, -, -, -, howed⟩ := owedMarks_cons ks (hks k mem_cons_self)
        rw [howed] at hmends
        cases hmends
    rw [hks, hliteral _ hs hends]
    exact .done hends
  | @rule states states' text m bs rule hne hnext hrefuses hafter _ ih =>
    obtain ⟨hrule, rest, hsplit⟩ := Grammar.next?_eq_some hnext
    have hs' : states' ∈ knownStates := by
      obtain ⟨_, hmem, heq⟩ := grammar_closed.rule states hs rule hrule
      cases heq.symm.trans hafter
      exact hmem
    have hgo : ∀ {ks' w vs'}, markAll? rule.actions (literal states ++ ks) = some (w, literal states' ++ ks') →
        (∀ k ∈ ks', isBracketed k = true) → Mends (owedMarks ks') bs vs' →
        grammar.Accepts states (literal states ++ ks).length text := fun hmark hks' hmends' =>
      .rule hne hnext hrefuses hafter (tokensAfter?_of_marks hmark).1 (ih hs' hks' hmends')
    cases effect hs hrule (describes_of_split? hsplit) with
    | refuses hyes => rw [hyes] at hrefuses; cases hrefuses
    | neutral hafter' hb hmark =>
      cases hafter'.symm.trans hafter
      rw [hb] at hmends
      exact hgo (hmark ks) hks hmends
    | @opens _ k hafter' hk hb hmark =>
      cases hafter'.symm.trans hafter
      obtain ⟨o, c, ho, -, hpartner, howed⟩ := owedMarks_cons ks hk
      rw [hb, ho] at hmends
      obtain ⟨vs', -, hmends⟩ := hmends.opened hpartner
      exact hgo (hmark ks) (forall_mem_cons.mpr ⟨hk, hks⟩) (howed ▸ hmends)
    | closes hafter' hc hb hmark _ =>
      cases hafter'.symm.trans hafter
      rw [hb] at hmends
      obtain ⟨_, _, _, heq, -, hmends⟩ := hmends.closed hc
      cases ks with
      | nil => cases heq
      | cons k ks =>
        obtain ⟨hk, hks⟩ := forall_mem_cons.mp hks
        obtain ⟨-, c', -, hc', -, howed⟩ := owedMarks_cons ks hk
        rw [howed] at heq
        cases heq
        exact hgo (hmark k ks) hks hmends

theorem exists_tokenize (hout : Outside [] source.toList bs) (hnests : Nests bs ws) :
    ∃ d, grammar.tokenize [] [] root (ofSource path source) = .ok () d :=
  (hout.accepts mem_cons_self (fun _ (hk : _ ∈ ([] : List Kind)) => absurd hk not_mem_nil)
    (mends_nil_iff.mpr hnests)).exists_tokenize grammar_lively path

/-- The manner in which strings and regular expressions are left out. -/
def withoutLiterals : Manner := fun d _ x =>
  if d.kind x ∈ [.doubleQuoted, .singleQuoted, .regex] then some "" else none

/-- The brackets of the source that a document is written as, outside of strings and regular
expressions. -/
def writtenBrackets (d : Document) : List Char := (d.render withoutLiterals root).toList.filter isBracket

theorem local_withoutLiterals : Manner.Local withoutLiterals := fun hn _ => by
  rw [withoutLiterals, withoutLiterals, kind, kind, hn]

theorem filter_writeBranch (w : NodeId → String) (l : List NodeId) :
    (writeBranch w (l.map .node)).toList.filter isBracket =
      l.flatMap fun x => (w x).toList.filter isBracket := by
  induction l with
  | nil => rfl
  | cons x l ih => simp [ih]

theorem IsRead.written (h : IsRead path source d) (hwritten : Written d l ws)
    (hl : ∀ x ∈ l, Reaches d.refs root x ∧ x ≠ root) :
    (l.flatMap fun x => (d.render withoutLiterals x).toList.filter isBracket) = ws := by
  have hplain : d.Plain := fun x => by rw [Node.naming?, h.payload_eq]
  have hrender : ∀ {x}, Reaches d.refs root x → d.kind x ∉ [Kind.doubleQuoted, .singleQuoted, .regex] →
      ∀ {b}, d.branches x = [b] → d.render withoutLiterals x =
        (d.kind x).opener ++ writeBranch (d.render withoutLiterals) b ++ (d.kind x).closer := by
    intro x hx hk b hb
    rw [h.grove.render_eq local_withoutLiterals hplain (h.uniqueOwner.lt_size hx), withoutLiterals,
      if_neg hk, Option.getD_none, write_of_none (h.payload_eq x), writeBranches, hb]
    simp [Kind.opener, Kind.closer]
  have hliteral : ∀ {x}, Reaches d.refs root x → d.kind x ∈ [Kind.doubleQuoted, .singleQuoted, .regex] →
      d.render withoutLiterals x = "" := by
    intro x hx hk
    rw [h.grove.render_eq local_withoutLiterals hplain (h.uniqueOwner.lt_size hx), withoutLiterals,
      if_pos hk]
    rfl
  induction hwritten with
  | nil => rfl
  | @cons x l inner ws hinner _ ihinner ih =>
    -- what is no list has no brackets
    have hleaf : ∀ {t}, d.branches x = [textBranch t] → isBracketed (d.kind x) = false →
        openMark (d.kind x) ++ inner ++ closeMark (d.kind x) = [] := by
      intro t hb hk
      rw [children_of_branches hb, nodes_textBranch] at hinner
      cases hinner
      rw [openMark, closeMark, hk]
      rfl
    obtain ⟨⟨hx, hne⟩, hl⟩ := forall_mem_cons.mp hl
    rw [flatMap_cons, ih hl]
    congr 1
    obtain ⟨_, _, _, -, hread⟩ := h.token hx hne
    generalize hlist : [some x] = list at hread
    cases hread with
    | nil => cases hlist
    | comment => cases hlist
    | @word _ t _ _ _ hw _ hb =>
      cases hlist
      have hkind : isBracketed (d.kind x) = false ∧ (d.kind x).delimiters = none := by
        generalize d.kind x = k at hw
        cases hw <;> exact ⟨rfl, rfl⟩
      rw [hleaf hb hkind.1]
      by_cases hk : d.kind x = .regex
      · rw [hliteral hx (by rw [hk]; decide)]
        rfl
      · have hnot : d.kind x ∉ [Kind.doubleQuoted, .singleQuoted, .regex] := by
          generalize d.kind x = k at hw hk
          cases hw <;> first | decide | exact absurd rfl hk
        rw [hrender hx hnot hb, Kind.opener, Kind.closer, hkind.2, writeBranch_textBranch]
        simpa using hw.filter_eq hk
    | quoted hq _ _ _ hb =>
      cases hlist
      have hkind : isBracketed (d.kind x) = false ∧
          d.kind x ∈ [Kind.doubleQuoted, .singleQuoted, .regex] := by
        generalize d.kind x = k at hq
        cases hq <;> exact ⟨rfl, by decide⟩
      rw [hleaf hb hkind.1, hliteral hx hkind.2]
      rfl
    | @bracketed _ _ _ _ _ _ _ _ m ho _ _ _ hb =>
      cases hlist
      have hbracketed := ho.bracketed
      have hnot : d.kind x ∉ [Kind.doubleQuoted, .singleQuoted, .regex] := by
        generalize d.kind x = k at hbracketed
        cases k <;> simp [isBracketed] at hbracketed <;> decide
      have hmarks : (d.kind x).opener.toList.filter isBracket = (d.kind x).opener.toList ∧
          (d.kind x).closer.toList.filter isBracket = (d.kind x).closer.toList := by
        generalize d.kind x = k at hbracketed
        cases k <;> simp [isBracketed] at hbracketed <;> exact ⟨rfl, rfl⟩
      have hnodes : (d.children x).nodes = m.reduceOption := by
        rw [children_of_branches hb, nodes_listBranch]
      have hbelow : ∀ y ∈ m.reduceOption, Reaches d.refs root y ∧ y ≠ root := by
        intro y hy
        have hmem : y ∈ d.refs x := by rwa [refs_of_branches (h.payload_eq x) hb, nodes_listBranch]
        refine ⟨hx.tail hmem, ?_⟩
        rintro rfl
        exact h.uniqueOwner.top_free hx hmem
      rw [hnodes] at ihinner
      rw [hrender hx hnot hb, String.toList_append, String.toList_append, filter_append,
        filter_append, filter_writeBranch, ihinner hbelow, hmarks.1, hmarks.2, openMark, closeMark,
        if_pos hbracketed, if_pos hbracketed]

theorem writtenBrackets_eq (h : IsRead path source d) (hw : Written d (d.children root).nodes ws) :
    writtenBrackets d = ws := by
  obtain ⟨l, hb, -⟩ := h.reads
  have hplain : d.Plain := fun x => by rw [Node.naming?, h.payload_eq]
  rw [children_of_branches hb, nodes_listBranch] at hw
  rw [writtenBrackets, h.grove.render_eq local_withoutLiterals hplain (h.uniqueOwner.lt_size .refl),
    withoutLiterals, if_neg (by rw [h.kind_eq]; decide), Option.getD_none,
    write_of_none (h.payload_eq root), writeBranches, hb, h.kind_eq]
  simp only [Kind.delimiters, Option.getD_none, map_cons, map_nil, String.join_cons,
    String.join_nil, String.append_empty, String.empty_append]
  rw [filter_writeBranch]
  refine h.written hw fun x hx => ?_
  have hmem : x ∈ d.refs root := by rwa [refs_of_branches (h.payload_eq root) hb, nodes_listBranch]
  refine ⟨.child hmem, ?_⟩
  rintro rfl
  exact h.uniqueOwner.top_free .refl hmem

end Sources

/-- **Brackets are closed by any brackets.** Of a source the brackets outside of strings, comments and
regular expressions are determined. It is accepted exactly if it can be read to its end and every one
of them is closed by some bracket, of whatever kind. The tokens are then written with the bracket that
belongs to the opening one in place of each closing one, so with those of the source only if these
match by kind. -/
theorem brackets_of_script (path source : String) :
    (∀ bs bs', Outside [] source.toList bs → Outside [] source.toList bs' → bs = bs') ∧
    ((∃ d, grammar.tokenize [] [] root (ofSource path source) = .ok () d) ↔
      ∃ bs ws, Outside [] source.toList bs ∧ Nests bs ws) ∧
    ∀ d, grammar.tokenize [] [] root (ofSource path source) = .ok () d →
      ∃ bs, Outside [] source.toList bs ∧ Nests bs (writtenBrackets d) ∧
        (writtenBrackets d = bs ↔ Matched bs) := by
  refine ⟨fun bs bs' h h' => h.eq h', ⟨?_, ?_⟩, fun d h => ?_⟩
  · rintro ⟨d, h⟩
    obtain ⟨bs, ws, hout, hnests, -⟩ := written_of_tokenize h
    exact ⟨bs, ws, hout, hnests⟩
  · rintro ⟨bs, ws, hout, hnests⟩
    exact exists_tokenize hout hnests
  · obtain ⟨bs, ws, hout, hnests, hwritten⟩ := written_of_tokenize h
    rw [writtenBrackets_eq (isRead_of_tokenize h) hwritten]
    refine ⟨bs, hout, hnests, ⟨?_, fun hmatched => ?_⟩⟩
    · rintro rfl
      exact nests_self_iff.mp hnests
    · exact (mends_nil_iff.mpr hnests).eq (mends_nil_iff.mpr (nests_self_iff.mpr hmatched))

/-- A round bracket that is closed by a square one is accepted, and written as another text. -/
theorem brackets_of_script_mixed : ∃ d,
    grammar.tokenize [] [] root (ofSource "s" "(]") = .ok () d ∧ d.source = "()" ∧
      ∃ bs, Outside [] "(]".toList bs ∧ Nests bs ['(', ')'] ∧ ¬ Matched bs := by
  have htok : succeeds (grammar.tokenize [] [] root) (ofSource "s" "(]") (fun _ d =>
      d.source == "()" && writtenBrackets d == ['(', ')']) = true := by
    decide +kernel
  obtain ⟨_, d, hd, hcheck⟩ := of_succeeds htok
  obtain ⟨hsource, hwritten⟩ := Bool.and_eq_true_iff.mp hcheck
  have hend : Outside [.afterValue] [] [] := .done (by decide)
  have hclose : Outside [] [']'] (bracketsIn .code [']'] ++ []) := .rule (by decide) rfl rfl rfl hend
  have hall : Outside [] ['(', ']'] (bracketsIn .code ['('] ++ [']']) := .rule (by decide) rfl rfl rfl hclose
  obtain ⟨hunique, -, hbrackets⟩ := brackets_of_script "s" "(]"
  obtain ⟨bs, hout, hnests, hiff⟩ := hbrackets d hd
  rw [beq_iff_eq.mp hwritten] at hnests hiff
  refine ⟨d, hd, beq_iff_eq.mp hsource, bs, hout, hnests, fun hmatched => ?_⟩
  have heq : ['(', ')'] = ['(', ']'] := (hiff.mpr hmatched).trans (hunique _ _ hout hall)
  exact absurd heq (by decide)

end Script

end Stencil
