import Stencil.Markup.Grammar
import Stencil.Proofs.Lexing.Course
import Stencil.Proofs.Lexing.Reading
import Stencil.Script.Grammar
import Stencil.Stylesheet.Grammar
import Stencil.Template.Grammar

/-!
# States and open tokens in step

What a rule does to the two stacks of a run does not depend on the text that it matches: the states
are pushed and popped, and tokens are started and stopped, whatever they hold. So it can be worked out
from the rules alone which stacks of states occur. For each of the four grammars these are finitely
many (`Grammar.Closed`), and for all but that of scripts each state stands for a fixed number of open
tokens (`Grammar.Level`).

So **the number of open tokens follows from the states at every point of every run**, no token is
closed where none is open, and no run leaves its first state (`stacks_in_step`).
-/

namespace Stencil

variable {n : Nat} {place : Place} {σ : Type}

def Error.IsFault (e : Error) (fault : LexFault) : Prop :=
  ∃ place near, e = .lex place fault near

@[simp] theorem Error.isFault_lex {fault fault' : LexFault} {near : String} :
    (Error.lex place fault near).IsFault fault' ↔ fault = fault' := by
  simp [IsFault]

@[simp] theorem Error.not_isFault_openToken {kind : Kind} {fault : LexFault} :
    ¬ (Error.openToken place kind).IsFault fault := by
  simp [IsFault]

@[simp] theorem Error.not_isFault_openState {state : String} {fault : LexFault} :
    ¬ (Error.openState place state).IsFault fault := by
  simp [IsFault]

namespace LexAction

/-- The states above the initial one after an action, if it can be carried out. -/
def statesAfter? : List σ → LexAction σ → Option (List σ)
  | states, push state => some (state :: states)
  | [], pop => none
  | _ :: states, pop => some states
  | states, _ => some states

/-- How many tokens are open after an action, if it can be carried out. -/
def tokensAfter? : Nat → LexAction σ → Option Nat
  | n, start _ => some (n + 1)
  | 0, stop => none
  | n + 1, stop => some n
  | n, _ => some n

end LexAction

namespace Rule

def statesAfter? (r : Rule σ) (states : List σ) : Option (List σ) :=
  r.actions.foldlM LexAction.statesAfter? states

def tokensAfter? (r : Rule σ) (n : Nat) : Option Nat :=
  r.actions.foldlM LexAction.tokensAfter? n

end Rule

namespace Run

variable {g : Grammar σ} {matched : List Char}

theorem length_opened_append (r : Run σ) (f : Fragment) :
    (r.append f).opened.length = r.opened.length := by
  rw [append]
  split
  · next h => rw [h]; rfl
  · rfl

section

variable (pending : Bool) (d : Document)
include pending d

theorem act_states {r : Run σ} {a : LexAction σ} {states : List σ}
    (h : a.statesAfter? r.states = some states) :
    Yields (r.act matched pending a) d (fun p _ => p.1.states = states)
      fun e _ => ¬ e.IsFault .leftFirstState := by
  refine ⟨fun ⟨r', p'⟩ d' hok => ?_, fun e d' he => ?_⟩
  · cases acts hok with
    | push => cases h; rfl
    | pop hs => rw [hs] at h; cases h; rfl
    | shift => cases h; cases pending <;> rfl
    | start hs => cases h; rw [(start_eq_ok hs).1]
    | stop hs =>
      cases h
      obtain ⟨t, ts, -, rfl, -⟩ := stop_eq_ok hs
      rw [states_append]
    | _ => cases h; exact states_append r _
  · obtain ⟨fault, rfl, ⟨rfl, hs, -⟩ | ⟨-, -, rfl⟩ | ⟨reason, -, rfl⟩⟩ := act_error he
    · rw [hs] at h
      cases h
    · simp
    · simp

theorem act_tokens {r : Run σ} {a : LexAction σ} (h : a.tokensAfter? r.opened.length = some n) :
    Yields (r.act matched pending a) d (fun p _ => p.1.opened.length = n)
      fun e _ => ¬ e.IsFault .unbalancedClose := by
  refine ⟨fun ⟨r', p'⟩ d' hok => ?_, fun e d' he => ?_⟩
  · cases acts hok with
    | push => cases h; rfl
    | pop => cases h; rfl
    | shift => cases h; cases pending <;> rfl
    | start hs => cases h; rw [(start_eq_ok hs).1]; rfl
    | stop hs =>
      obtain ⟨t, ts, ho, rfl, -⟩ := stop_eq_ok hs
      rw [ho] at h
      cases h
      rw [length_opened_append]
    | _ => cases h; exact length_opened_append r _
  · obtain ⟨fault, rfl, ⟨-, -, rfl⟩ | ⟨rfl, ho, -⟩ | ⟨reason, -, rfl⟩⟩ := act_error he
    · simp
    · rw [ho] at h
      cases h
    · simp

theorem perform_states {actions : List (LexAction σ)} {r : Run σ} {states : List σ}
    (h : actions.foldlM LexAction.statesAfter? r.states = some states) :
    Yields (perform matched actions pending r) d (fun r _ => r.states = states)
      fun e _ => ¬ e.IsFault .leftFirstState := by
  induction actions generalizing r pending d with
  | nil => cases h; exact .pure rfl
  | cons a actions ih =>
    rw [List.foldlM_cons] at h
    obtain ⟨states', ha, h⟩ := Option.bind_eq_some_iff.mp h
    exact (act_states pending d ha).bind fun p d hp => ih p.2 d (hp ▸ h)

theorem perform_tokens {actions : List (LexAction σ)} {r : Run σ}
    (h : actions.foldlM LexAction.tokensAfter? r.opened.length = some n) :
    Yields (perform matched actions pending r) d (fun r _ => r.opened.length = n)
      fun e _ => ¬ e.IsFault .unbalancedClose := by
  induction actions generalizing r pending d with
  | nil => cases h; exact .pure rfl
  | cons a actions ih =>
    rw [List.foldlM_cons] at h
    obtain ⟨n', ha, h⟩ := Option.bind_eq_some_iff.mp h
    exact (act_tokens pending d ha).bind fun p d hp => ih p.2 d (hp ▸ h)

end

theorem step_yields [DecidableEq σ] {r : Run σ} {d : Document} {P : Run σ → Prop}
    {E : Error → Prop} (hnone : ∀ place state near, E (.lex place (.noTransition state) near))
    (hstuck : ∀ place state near, E (.lex place (.noProgress state) near))
    (h : ∀ rule ∈ g.rules (r.state g), ∀ matched,
      Yields (perform matched rule.actions true r) d (fun r _ => P r) fun e _ => E e) :
    Yields (r.step g) d (fun r _ => P r) fun e _ => E e := by
  rw [step]
  cases hn : g.next? (r.state g) r.ahead with
  | none => exact .throw (hnone _ _ _)
  | some p =>
    obtain ⟨rule, matched⟩ := p
    refine (h rule (Grammar.next?_eq_some hn).1 matched).bind fun after d hafter => ?_
    split_ifs
    · exact .throw (hstuck _ _ _)
    · exact .pure hafter

end Run

theorem Yields.and {ε α : Type} {x : EStateM ε σ α} {s : σ} {Q Q' : α → σ → Prop}
    {E E' : ε → σ → Prop} (h : Yields x s Q E) (h' : Yields x s Q' E') :
    Yields x s (fun a s => Q a s ∧ Q' a s) fun e s => E e s ∧ E' e s :=
  ⟨fun a s' hok => ⟨h.ok a s' hok, h'.ok a s' hok⟩, fun e s' he => ⟨h.error e s' he, h'.error e s' he⟩⟩

namespace Grammar

variable {g : Grammar σ} {known : List (List σ)} {openTokens : σ → Nat}

/-- No other stacks of states than those known occur. -/
structure Closed (g : Grammar σ) (known : List (List σ)) : Prop where
  start : [] ∈ known
  rule : ∀ states ∈ known, ∀ r ∈ g.rules (states.headD g.initial),
    ∃ states' ∈ known, r.statesAfter? states = some states'

/-- How many tokens are open in given states, the initial one included. -/
def tokensIn (g : Grammar σ) (openTokens : σ → Nat) (states : List σ) : Nat :=
  ((states ++ [g.initial]).map openTokens).sum

/-- In the stacks that are known, each rule changes the number of open tokens as it changes the
states. -/
structure Level (g : Grammar σ) (known : List (List σ)) (openTokens : σ → Nat) : Prop where
  start : g.tokensIn openTokens [] = 0
  rule : ∀ states ∈ known, ∀ r ∈ g.rules (states.headD g.initial),
    r.tokensAfter? (g.tokensIn openTokens states) =
      (r.statesAfter? states).map (g.tokensIn openTokens)

theorem lasting_states (hc : g.Closed known) : Run.Lasting g (fun r => r.states ∈ known)
    fun e => ¬ e.IsFault .leftFirstState where
  fresh _ := hc.start
  load h _ := h
  seek h _ := h
  append h _ := by rwa [Run.states_append]
  openToken := by simp
  openState := by simp

theorem lasting_tokens (hc : g.Closed known) (hl : g.Level known openTokens) :
    Run.Lasting g
      (fun r => r.states ∈ known ∧ r.opened.length = g.tokensIn openTokens r.states)
      fun e => ¬ e.IsFault .leftFirstState ∧ ¬ e.IsFault .unbalancedClose where
  fresh _ := ⟨hc.start, hl.start.symm⟩
  load h _ := h
  seek h _ := h
  append h _ := by rwa [Run.states_append, Run.length_opened_append]
  openToken := by simp
  openState := by simp

variable [DecidableEq σ]

theorem step_states (hc : g.Closed known) {r : Run σ} (d : Document) (h : r.states ∈ known) :
    Yields (r.step g) d (fun r _ => r.states ∈ known) fun e _ => ¬ e.IsFault .leftFirstState := by
  refine Run.step_yields (by simp) (by simp) fun rule hrule matched => ?_
  obtain ⟨states', hmem, hafter⟩ := hc.rule r.states h rule hrule
  exact (Run.perform_states true d hafter).mono (fun _ _ heq => heq ▸ hmem) fun _ _ he => he

theorem step_tokens (hc : g.Closed known) (hl : g.Level known openTokens) {r : Run σ}
    (d : Document) (h : r.states ∈ known ∧ r.opened.length = g.tokensIn openTokens r.states) :
    Yields (r.step g) d
      (fun r _ => r.states ∈ known ∧ r.opened.length = g.tokensIn openTokens r.states)
      fun e _ => ¬ e.IsFault .leftFirstState ∧ ¬ e.IsFault .unbalancedClose := by
  refine Run.step_yields (by simp) (by simp) fun rule hrule matched => ?_
  obtain ⟨states', hmem, hafter⟩ := hc.rule r.states h.1 rule hrule
  have htokens := hl.rule r.states h.1 rule hrule
  rw [hafter, ← h.2] at htokens
  refine ((Run.perform_states true d hafter).and (Run.perform_tokens true d htokens)).mono ?_
    fun _ _ he => he
  rintro r' _ ⟨rfl, hlen⟩
  exact ⟨hmem, hlen⟩

theorem Closed.tokenize (hc : g.Closed known) (through enter : List Kind) (id : NodeId)
    (d : Document) : Witnesses (g.tokenize through enter id) (g.course through enter id) d
      (fun _ _ => True) (fun e _ => ¬ e.IsFault .leftFirstState) fun r => r.states ∈ known :=
  tokenize_witnesses (lasting_states hc)
    (fun _ d h => Run.scan_witnesses (step_states hc) (by simp) _ _ d h) through enter id d

theorem Level.tokenize (hl : g.Level known openTokens) (hc : g.Closed known)
    (through enter : List Kind) (id : NodeId) (d : Document) :
    Witnesses (g.tokenize through enter id) (g.course through enter id) d (fun _ _ => True)
      (fun e _ => ¬ e.IsFault .leftFirstState ∧ ¬ e.IsFault .unbalancedClose)
      fun r => r.states ∈ known ∧ r.opened.length = g.tokensIn openTokens r.states :=
  tokenize_witnesses (lasting_tokens hc hl)
    (fun _ d h => Run.scan_witnesses (step_tokens hc hl) (by simp) _ _ d h) through enter id d

end Grammar

namespace Template

def LexState.openTokens : LexState → Nat
  | outside => 0
  | comment | longComment | insideTag | insideVariable => 1

/-- The stacks of states that occur above the initial state. -/
def knownStates : List (List LexState) :=
  [[], [.comment], [.longComment], [.comment, .longComment], [.insideTag], [.insideVariable]]

theorem grammar_closed : grammar.Closed knownStates where
  start := by decide
  rule := by decide

theorem grammar_level : grammar.Level knownStates LexState.openTokens where
  start := by decide
  rule := by decide

end Template

namespace Markup

/-- How many tokens are open in a state, those that the states below it stand for apart: in the value
of an attribute these are the attribute and its value. -/
def LexState.openTokens : LexState → Nat
  | text | scriptBody | styleBody | singleQuotedValue | doubleQuotedValue => 0
  | conditional | comment | cdata | doctype | tag | endTag | insideTag | scriptTag | styleTag => 1
  | attributeValue => 2

/-- The stacks of states that occur above the initial state. -/
def knownStates : List (List LexState) :=
  [[], [.conditional], [.comment], [.cdata], [.doctype], [.tag], [.endTag], [.scriptBody],
    [.styleBody]] ++
  [.insideTag, .scriptTag, .styleTag].flatMap fun state =>
    [[state], [.attributeValue, state], [.singleQuotedValue, .attributeValue, state],
      [.doubleQuotedValue, .attributeValue, state]]

theorem grammar_closed : grammar.Closed knownStates where
  start := by decide
  rule := by decide

theorem grammar_level : grammar.Level knownStates LexState.openTokens where
  start := by decide
  rule := by decide

end Markup

namespace Stylesheet

def LexState.openTokens : LexState → Nat
  | rules | longComment | lineComment | urlDoubleQuoted | urlSingleQuoted => 0
  | doubleQuoted | singleQuoted | url => 1

/-- The stacks of states that occur above the initial state. -/
def knownStates : List (List LexState) :=
  [[], [.doubleQuoted], [.singleQuoted], [.longComment], [.lineComment], [.url],
    [.urlDoubleQuoted, .url], [.urlSingleQuoted, .url]]

theorem grammar_closed : grammar.Closed knownStates where
  start := by decide
  rule := by decide

theorem grammar_level : grammar.Level knownStates LexState.openTokens where
  start := by decide
  rule := by decide

end Stylesheet

namespace Script

/-- The stacks of states that occur above the initial state. Brackets open and close tokens without
a state of their own. -/
def knownStates : List (List LexState) :=
  [[], [.doubleQuoted], [.singleQuoted], [.longComment], [.lineComment], [.afterValue],
    [.longComment, .afterValue], [.regex]]

theorem grammar_closed : grammar.Closed knownStates where
  start := by decide
  rule := by decide

end Script

/-- When the branches of a node are split into tokens, the number of open tokens follows from the
states at every point, and neither of the two faults of the stacks arises. -/
structure Grammar.InStep {σ : Type} [DecidableEq σ] (g : Grammar σ) (openTokens : σ → Nat)
    (through enter : List Kind) (id : NodeId) (d : Document) : Prop where
  tokens : ∀ r ∈ g.course through enter id d, r.opened.length = g.tokensIn openTokens r.states
  unbalancedClose : ∀ e d', g.tokenize through enter id d = .error e d' →
    ¬ e.IsFault .unbalancedClose
  leftFirstState : ∀ e d', g.tokenize through enter id d = .error e d' →
    ¬ e.IsFault .leftFirstState

theorem Grammar.Level.inStep [DecidableEq σ] {g : Grammar σ} {known : List (List σ)}
    {openTokens : σ → Nat} (hl : g.Level known openTokens) (hc : g.Closed known)
    (through enter : List Kind) (id : NodeId) (d : Document) : g.InStep openTokens through enter id d :=
  have h := hl.tokenize hc through enter id d
  ⟨fun r hr => (h.all r hr).2, fun e d' he => (h.toYields.error e d' he).2,
    fun e d' he => (h.toYields.error e d' he).1⟩

/-- Templates, markup and stylesheets are read with states and open tokens in step, and no run over
a script leaves its first state. -/
theorem stacks_in_step (through enter : List Kind) (id : NodeId) (d : Document) :
    Template.grammar.InStep Template.LexState.openTokens through enter id d ∧
      Markup.grammar.InStep Markup.LexState.openTokens through enter id d ∧
      Stylesheet.grammar.InStep Stylesheet.LexState.openTokens through enter id d ∧
      ∀ e d', Script.grammar.tokenize through enter id d = .error e d' →
        ¬ e.IsFault .leftFirstState :=
  ⟨Template.grammar_level.inStep Template.grammar_closed through enter id d,
    Markup.grammar_level.inStep Markup.grammar_closed through enter id d,
    Stylesheet.grammar_level.inStep Stylesheet.grammar_closed through enter id d,
    (Script.grammar_closed.tokenize through enter id d).toYields.error⟩

end Stencil
