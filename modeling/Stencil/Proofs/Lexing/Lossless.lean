import Stencil.Template.Parse
import Stencil.Markup.Elements
import Stencil.Proofs.Lexing.Reading

/-!
# Templates and markup are read without loss

Both grammars drop the delimiters of tags, variables, comments and character data, and leave it to the
kind of the token to write them again. Rule by rule, what is dropped is what will be written
(`Template.grammar_lossless`, `Markup.grammar_lossless`): a rule that records nothing matches one
literal text, and this text is the delimiter of the token that it starts or stops.
-/

namespace Stencil

open Document List

variable {d : Document} {w : String}

namespace Rule

open LexAction

variable {σ : Type} {fits : Stacks σ → Prop} {s s' : Stacks σ} {r : Rule σ} {p : Pattern}
  {k : Kind} {state : σ}

/-- In stacks `s` the rule adds what it moves past. -/
def Keeps (fits : Stacks σ → Prop) (s : Stacks σ) (r : Rule σ) : Prop :=
  ∀ text matched rest, r.pattern.split? text = some (matched, rest) → ∀ out s',
    emitAll (String.ofList matched) r.actions s = some (out, s') →
    fits s' ∧ out = if r.actions.any shifts then String.ofList matched else ""

theorem Keeps.followedBy (h : r.Keeps fits s) (p : Pattern) : (r.followedBy p).Keeps fits s := h

theorem Keeps.notFollowedBy (h : r.Keeps fits s) (p : Pattern) :
    (r.notFollowedBy p).Keeps fits s := h

theorem keeps_of_emit (hf : fits s') (hshift : r.actions.any shifts)
    (h : ∀ m, emitAll m r.actions s = some (m, s')) : r.Keeps fits s := by
  intro text matched rest _ out s1 hemit
  rw [h] at hemit
  cases hemit
  rw [if_pos hshift]
  exact ⟨hf, rfl⟩

theorem keeps_of_lit (hf : fits s') (hp : r.pattern = .lit w)
    (hshift : r.actions.any shifts) (h : emitAll w r.actions s = some (w, s')) : r.Keeps fits s := by
  intro text matched rest hsplit out s1 hemit
  rw [hp] at hsplit
  have hm : String.ofList matched = w := by
    rw [Pattern.describes_lit (Pattern.describes_of_split? hsplit), String.ofList_toList]
  rw [hm, h] at hemit
  cases hemit
  rw [if_pos hshift, hm]
  exact ⟨hf, rfl⟩

theorem keeps_of_still (hf : fits s') (hshift : r.actions.any shifts = false)
    (h : ∀ m, emitAll m r.actions s = some ("", s')) : r.Keeps fits s := by
  intro text matched rest _ out s1 hemit
  rw [h] at hemit
  cases hemit
  rw [hshift]
  exact ⟨hf, rfl⟩

theorem keeps_fail {reason : String} : (Rule.on p [fail reason]).Keeps fits s :=
  fun _ _ _ _ _ _ hemit => by cases hemit

theorem keeps_record (hf : fits s) : (Rule.on p [record, shift]).Keeps fits s :=
  keeps_of_emit hf rfl fun m => by simp [on, emitAll, emit]

theorem keeps_token (hf : fits s) (hk : k.delimiters = none) :
    (Rule.on p [start k, record, shift, stop]).Keeps fits s :=
  keeps_of_emit hf rfl fun m => by simp [on, emitAll, emit, Kind.opener, Kind.closer, hk]

theorem keeps_open (hf : fits ⟨state :: s.states, "" :: s.owed⟩) (hk : k.delimiters = none) :
    (Rule.on p [start k, record, shift, push state]).Keeps fits s :=
  keeps_of_emit hf rfl fun m => by simp [on, emitAll, emit, Kind.opener, Kind.closer, hk]

theorem keeps_open_lit {w' : String} (hf : fits ⟨state :: s.states, w' :: s.owed⟩)
    (hk : k.delimiters = some (w, w')) : (Rule.on (.lit w) [start k, shift, push state]).Keeps fits s :=
  keeps_of_lit hf rfl rfl (by simp [on, emitAll, emit, Kind.opener, Kind.closer, hk])

end Rule

open Rule (keeps_of_emit keeps_of_lit keeps_of_still keeps_fail keeps_record keeps_token keeps_open
  keeps_open_lit)
open LexAction (emitAll emit)

namespace Template

def LexState.closer : LexState → String
  | insideTag => "%\x7d"
  | insideVariable => "\x7d\x7d"
  | _ => ""

/-- Every state above the initial one has one open token. -/
def Fits (s : Stacks LexState) : Prop := s.owed = s.states.map LexState.closer

theorem keeps_outside {s : Stacks LexState} (hs : Fits s) : ∀ r ∈ rules .outside, r.Keeps Fits s := by
  have hpush : ∀ state : LexState, Fits ⟨state :: s.states, state.closer :: s.owed⟩ := fun state =>
    congrArg (state.closer :: ·) hs
  simp only [rules, forall_mem_cons]
  exact ⟨keeps_open (hpush .comment) rfl, keeps_open (hpush .longComment) rfl,
    keeps_open_lit (hpush .insideTag) rfl, keeps_open_lit (hpush .insideVariable) rfl,
    keeps_token hs rfl, (keeps_token hs rfl).notFollowedBy _, keeps_fail, by simp⟩

theorem keeps_rules {state : LexState} {states : List LexState} :
    ∀ r ∈ rules state, r.Keeps Fits ⟨state :: states, (state :: states).map LexState.closer⟩ := by
  have hs : Fits ⟨state :: states, (state :: states).map LexState.closer⟩ := rfl
  have hpop : Fits ⟨states, states.map LexState.closer⟩ := rfl
  cases state with
  | outside => exact keeps_outside hs
  | comment =>
    simp only [rules, forall_mem_cons]
    refine ⟨?_, keeps_record hs, keeps_fail, keeps_record hs, by simp⟩
    exact keeps_of_emit hpop rfl fun m => by simp [Rule.on, emitAll, emit, LexState.closer]
  | longComment =>
    have hpush : Fits ⟨.comment :: .longComment :: states, "" :: "" :: states.map LexState.closer⟩ :=
      rfl
    simp only [rules, forall_mem_cons]
    refine ⟨?_, keeps_open hpush rfl, keeps_record hs, keeps_record hs, by simp⟩
    exact keeps_of_emit hpop rfl fun m => by simp [Rule.on, emitAll, emit, LexState.closer]
  | insideTag =>
    simp only [rules, forall_mem_cons]
    exact ⟨keeps_token hs rfl, keeps_of_lit hpop rfl rfl rfl, keeps_record hs, keeps_fail, by simp⟩
  | insideVariable =>
    simp only [rules, forall_mem_cons]
    exact ⟨keeps_token hs rfl, keeps_of_lit hpop rfl rfl rfl, keeps_record hs, keeps_fail, by simp⟩

theorem grammar_lossless : grammar.Lossless Fits where
  start := rfl
  rule := by
    rintro ⟨states, owed⟩ hs r hr
    cases states with
    | nil => exact keeps_outside hs r hr
    | cons state states =>
      obtain rfl : owed = (state :: states).map LexState.closer := hs
      exact keeps_rules r hr

end Template

namespace Markup

open Rule (Keeps)

/-- The delimiters that close the tokens of a state, the innermost first. -/
def LexState.closers : LexState → List String
  | conditional | doctype => [""]
  | comment => ["-->"]
  | cdata => ["]]>"]
  | tag | endTag | insideTag | scriptTag | styleTag => [">"]
  | attributeValue => ["", ""]
  | text | scriptBody | styleBody | singleQuotedValue | doubleQuotedValue => []

def LexState.isQuoted : LexState → Bool
  | singleQuotedValue | doubleQuotedValue => true
  | _ => false

/-- Quotes are opened in attribute values only. -/
inductive Stacked : List LexState → Prop where
  | nil : Stacked []
  | plain {state : LexState} {states : List LexState} : state.isQuoted = false → Stacked states →
      Stacked (state :: states)
  | quoted {state : LexState} {states : List LexState} : state.isQuoted = true → Stacked states →
      Stacked (state :: .attributeValue :: states)

/-- Every state has its open tokens, and quotes are inside of attribute values. -/
structure Fits (s : Stacks LexState) : Prop where
  stacked : Stacked s.states
  owed_eq : s.owed = s.states.flatMap LexState.closers

variable {s : Stacks LexState} {states : List LexState}

theorem Fits.push (state : LexState) (h : Fits s) (hq : state.isQuoted = false) :
    Fits ⟨state :: s.states, state.closers ++ s.owed⟩ :=
  ⟨.plain hq h.stacked, by rw [h.owed_eq]; rfl⟩

abbrev stacksOf (states : List LexState) : Stacks LexState := ⟨states, states.flatMap LexState.closers⟩

theorem Fits.of_stacked (h : Stacked states) : Fits (stacksOf states) :=
  ⟨h, rfl⟩

theorem keeps_text (hs : Fits s) : ∀ r ∈ rules .text, r.Keeps Fits s := by
  simp only [rules, forall_mem_cons]
  exact ⟨keeps_open (hs.push _ rfl) rfl, keeps_token hs rfl, keeps_open_lit (hs.push _ rfl) rfl,
    keeps_open (hs.push _ rfl) rfl, keeps_open_lit (hs.push _ rfl) rfl,
    (keeps_open_lit (hs.push _ rfl) rfl).followedBy _, (keeps_open_lit (hs.push _ rfl) rfl).followedBy _,
    keeps_token hs rfl, keeps_token hs rfl, keeps_token hs rfl, keeps_fail, by simp⟩

section

variable (h : Stacked states)
include h

theorem keeps_name {p : Pattern} {state next : LexState}
    (hq : next.isQuoted = false) (hc : next.closers = state.closers) :
    (nameRule p next).Keeps Fits (stacksOf (state :: states)) := by
  have hs := Fits.of_stacked (.plain hq h)
  refine keeps_of_emit hs rfl fun m => ?_
  simp [nameRule, Rule.on, emitAll, emit, Kind.opener, Kind.closer, Kind.delimiters, hc]

theorem keeps_insideTag {state : LexState} {close : List (LexAction LexState)}
    (hq : state.isQuoted = false) (hc : state.closers = [">"])
    (hclose : (Rule.on (.lit ">") close).Keeps Fits (stacksOf (state :: states))) :
    ∀ r ∈ insideTag close, r.Keeps Fits (stacksOf (state :: states)) := by
  have hs := Fits.of_stacked (.plain hq h)
  have hvalue := hs.push .attributeValue rfl
  simp only [insideTag, forall_mem_cons]
  refine ⟨?_, ?_, ?_, hclose, keeps_token hs rfl, keeps_fail, by simp⟩
  · refine keeps_of_emit hvalue rfl fun m => ?_
    simp [Rule.on, emitAll, emit, Kind.opener, Kind.closer, Kind.delimiters, LexState.closers]
  · refine keeps_of_emit hs rfl fun m => ?_
    simp [Rule.on, emitAll, emit, Kind.opener, Kind.closer, Kind.delimiters]
  · refine keeps_of_lit (.of_stacked h) rfl rfl ?_
    simp [Rule.on, emitAll, emit, Kind.opener, Kind.closer, Kind.delimiters, hc]

theorem keeps_quotedValue {quote : String} {state : LexState}
    (hq : state.isQuoted = true) (hc : state.closers = []) :
    ∀ r ∈ quotedValue quote, r.Keeps Fits (stacksOf (state :: .attributeValue :: states)) := by
  have hs := Fits.of_stacked (.quoted hq h)
  simp only [quotedValue, forall_mem_cons]
  refine ⟨?_, keeps_token hs rfl, keeps_record hs, keeps_record hs, by simp⟩
  have hvalue : LexState.attributeValue.closers = ["", ""] := rfl
  refine keeps_of_emit (.of_stacked h) rfl fun m => ?_
  simp [Rule.on, emitAll, emit, hc, hvalue]

theorem keeps_rawBody {name : String} {state : LexState}
    (hq : state.isQuoted = false) (hc : state.closers = []) :
    ∀ r ∈ rawBody name, r.Keeps Fits (stacksOf (state :: states)) := by
  have hs := Fits.of_stacked (.plain hq h)
  have hend := Fits.of_stacked (@Stacked.plain .endTag states rfl h)
  simp only [rawBody, forall_mem_cons]
  refine ⟨.followedBy ?_ _, keeps_record hs, keeps_record hs, by simp⟩
  have hcloser : LexState.endTag.closers = [">"] := rfl
  refine keeps_of_lit hend rfl rfl ?_
  simp [Rule.on, emitAll, emit, Kind.opener, Kind.closer, Kind.delimiters, hc, hcloser]

theorem keeps_attributeValue :
    ∀ r ∈ rules .attributeValue, r.Keeps Fits (stacksOf (.attributeValue :: states)) := by
  have hs := Fits.of_stacked (@Stacked.plain .attributeValue states rfl h)
  have hsingle := Fits.of_stacked (@Stacked.quoted .singleQuotedValue states rfl h)
  have hdouble := Fits.of_stacked (@Stacked.quoted .doubleQuotedValue states rfl h)
  simp only [rules, forall_mem_cons]
  refine ⟨?_, ?_, keeps_record hs, ?_, by simp⟩
  · exact keeps_of_emit hsingle rfl fun m => by simp [Rule.on, emitAll, emit, LexState.closers]
  · exact keeps_of_emit hdouble rfl fun m => by simp [Rule.on, emitAll, emit, LexState.closers]
  · exact keeps_of_still (.of_stacked h) rfl fun m => by
      simp [Rule.on, emitAll, emit, LexState.closers]

end

theorem keeps_plain {state : LexState} (hq : state.isQuoted = false) (h : Stacked states) :
    ∀ r ∈ rules state, r.Keeps Fits (stacksOf (state :: states)) := by
  have hs := Fits.of_stacked (.plain hq h)
  have hpop := Fits.of_stacked h
  cases state with
  | text => exact keeps_text hs
  | conditional =>
    simp only [rules, forall_mem_cons]
    refine ⟨keeps_record hs, ?_, keeps_fail, by simp⟩
    exact keeps_of_emit hpop rfl fun m => by simp [Rule.on, emitAll, emit, LexState.closers]
  | comment =>
    simp only [rules, forall_mem_cons]
    exact ⟨keeps_of_lit hpop rfl rfl rfl, keeps_record hs, keeps_record hs, by simp⟩
  | cdata =>
    simp only [rules, forall_mem_cons]
    exact ⟨keeps_of_lit hpop rfl rfl rfl, keeps_record hs, keeps_record hs, by simp⟩
  | doctype =>
    simp only [rules, forall_mem_cons]
    refine ⟨?_, keeps_record hs, by simp⟩
    exact keeps_of_emit hpop rfl fun m => by simp [Rule.on, emitAll, emit, LexState.closers]
  | tag =>
    simp only [rules, forall_mem_cons]
    exact ⟨(keeps_name h rfl rfl).notFollowedBy _, (keeps_name h rfl rfl).notFollowedBy _,
      keeps_name h rfl rfl, keeps_fail, by simp⟩
  | endTag =>
    simp only [rules, forall_mem_cons]
    exact ⟨keeps_name h rfl rfl, keeps_fail, by simp⟩
  | insideTag => exact keeps_insideTag h rfl rfl (keeps_of_lit hpop rfl rfl rfl)
  | scriptTag =>
    have hbody := hpop.push .scriptBody rfl
    exact keeps_insideTag h rfl rfl (keeps_of_lit hbody rfl rfl rfl)
  | styleTag =>
    have hbody := hpop.push .styleBody rfl
    exact keeps_insideTag h rfl rfl (keeps_of_lit hbody rfl rfl rfl)
  | scriptBody => exact keeps_rawBody h rfl rfl
  | styleBody => exact keeps_rawBody h rfl rfl
  | attributeValue => exact keeps_attributeValue h
  | singleQuotedValue => cases hq
  | doubleQuotedValue => cases hq

theorem grammar_lossless : grammar.Lossless Fits where
  start := ⟨.nil, rfl⟩
  rule := by
    rintro ⟨states, owed⟩ hs r hr
    have hstacked : Stacked states := hs.stacked
    obtain rfl : owed = states.flatMap LexState.closers := hs.owed_eq
    cases hstacked with
    | nil => exact keeps_text ⟨.nil, rfl⟩ r hr
    | plain hq h => exact keeps_plain hq h r hr
    | @quoted state states hq h =>
      cases state with
      | singleQuotedValue => exact keeps_quotedValue h rfl rfl r hr
      | doubleQuotedValue => exact keeps_quotedValue h rfl rfl r hr
      | _ => cases hq

end Markup

theorem Template.tokenize_retold {path s : String}
    (h : grammar.tokenize [] [] root (.ofSource path s) = .ok () d) :
    Document.Retold Manner.source (.ofSource path s) d root [] ∧
      (ofSource path s).Steady d :=
  Grammar.tokenize_retold grammar_lossless (by simp) (grove_ofSource path s)
    (plain_ofSource path s) (fun _ hx => absurd hx not_mem_nil) h

theorem Markup.lex_retold {d' : Document} {L : List NodeId} (hg : d.Grove (root :: L))
    (hp : d.Plain) (hb : Run.Bodiless [.content, .expanded] d) (h : lex d = .ok () d') :
    Document.Retold Manner.source d d' root L ∧ d.Steady d' :=
  Grammar.tokenize_retold grammar_lossless (by decide) hg hp hb h

/-- **Reading is lossless.** The source of a document is the text that it was read from, after the
text has been split into the tokens of the template, and also after these have been split into
markup. -/
theorem source_after_lexing (path s : String) {d : Document}
    (h : Template.grammar.tokenize [] [] Document.root (.ofSource path s) = .ok () d) :
    d.source = s ∧ ∀ d', Markup.lex d = .ok () d' → d'.source = s := by
  obtain ⟨hretold, hsteady⟩ := Template.tokenize_retold h
  have hsource : d.source = s := hretold.render_eq.trans (Document.source_ofSource path s)
  refine ⟨hsource, fun d' hlex => ?_⟩
  have hbodiless : Run.Bodiless [.content, .expanded] d := fun x _ => by
    rw [hsteady.payload_eq]
    exact (Document.node_ofSource path s x).2
  obtain ⟨hretold', -⟩ := Markup.lex_retold hretold.grove hretold.plain hbodiless hlex
  exact hretold'.render_eq.trans hsource

/-- A text with a comment, tags and a variable inside of markup, and markup inside of a tag. -/
def mixedPage : String :=
  "\x7b# c #\x7d<p class=\"\x7b\x7b a \x7d\x7d\">\x7b% if \"<b>\" %\x7dx &amp; y\x7b% else %\x7d" ++
    "\x7b% endif %\x7d<br/></p>"

theorem source_after_lexing_mixedPage : ∃ d d',
    Template.grammar.tokenize [] [] Document.root (.ofSource "p" mixedPage) = .ok () d ∧
      Markup.lex d = .ok () d' ∧ d.source = mixedPage ∧ d'.source = mixedPage := by
  have hok : succeeds (do Template.grammar.tokenize [] [] Document.root; Markup.lex)
      (.ofSource "p" mixedPage) (fun _ _ => true) = true := by decide +kernel
  obtain ⟨_, d', h, -⟩ := of_succeeds hok
  obtain ⟨_, d, htokenize, hlex⟩ := bind_eq_ok.mp h
  obtain ⟨hd, hd'⟩ := source_after_lexing "p" mixedPage htokenize
  exact ⟨d, d', htokenize, hlex, hd, hd' d' hlex⟩

end Stencil
