import Stencil.Proofs.Lexing.Balance

/-!
# Lexing ends

A rule that moves on matches some text, and it enters at most one state. A rule that does not move on
leaves a state. So twice the number of characters that lie ahead and the number of states together get
smaller with each rule (`Run.step_decreases`), and **no run goes on for ever** (`lexing_ends`).
-/

namespace Stencil

open Document List

variable {s : List Char} {n : Nat} {σ : Type}

namespace Rule

def rise (r : Rule σ) : Int := r.actions.foldr (·.stateRise + ·) 0

/-- A rule that moves past some text and enters at most one state. -/
def Advances (r : Rule σ) : Prop :=
  r.actions.any LexAction.shifts = true ∧ 1 ≤ r.pattern.minLength ∧ r.rise ≤ 1

def Retreats (r : Rule σ) : Prop :=
  r.actions.any LexAction.shifts = false ∧ r.rise < 0

instance (r : Rule σ) : Decidable r.Advances := inferInstanceAs (Decidable (_ ∧ _))

instance (r : Rule σ) : Decidable r.Retreats := inferInstanceAs (Decidable (_ ∧ _))

end Rule

/-- A grammar in which each rule moves on, leaves a state or refuses the text. -/
def Grammar.Lively {σ : Type} (g : Grammar σ) : Prop :=
  ∀ state, ∀ r ∈ g.rules state, r.Advances ∨ r.Retreats ∨ r.actions.any LexAction.refuses = true

namespace Run

variable {g : Grammar σ} {m : List Char} {d d' : Document} {r r' : Run σ}

theorem perform_rise {p : Bool} {actions : List (LexAction σ)}
    (h : perform m actions p r d = .ok r' d') :
    (r'.states.length : Int) = r.states.length + actions.foldr (·.stateRise + ·) 0 ∧
      actions.any LexAction.refuses = false := by
  induction actions generalizing r p d with
  | nil =>
    obtain ⟨rfl, -⟩ := pure_eq_ok.mp h
    simp
  | cons a actions ih =>
    obtain ⟨⟨r1, p1⟩, d1, hact, h⟩ := bind_eq_ok.mp h
    obtain ⟨hrise', hrefuses⟩ := ih h
    have hrise := act_rise hact
    refine ⟨?_, ?_⟩
    · rw [hrise', hrise, foldr_cons]
      omega
    · rw [any_cons, hrefuses, Bool.or_false]
      cases a with
      | fail reason => cases hact
      | _ => rfl

/-- The error is neither that a rule changed nothing nor that rules never move on. -/
def Ends (e : Error) : Prop :=
  ∀ state, ¬ e.IsFault (.noProgress state) ∧ ¬ e.IsFault (.endless state)

theorem act_ends (r : Run σ) (p : Bool) (a : LexAction σ) (d : Document) :
    Yields (r.act m p a) d (fun _ _ => True) fun e _ => Ends e := by
  refine ⟨fun _ _ _ => trivial, fun e d' he state => ?_⟩
  obtain ⟨fault, rfl, ⟨-, -, rfl⟩ | ⟨-, -, rfl⟩ | ⟨reason, -, rfl⟩⟩ := act_error he <;> simp

theorem perform_ends (actions : List (LexAction σ)) (p : Bool) (r : Run σ) (d : Document) :
    Yields (perform m actions p r) d (fun _ _ => True) fun e _ => Ends e := by
  induction actions generalizing p r d with
  | nil => exact .pure trivial
  | cons a actions ih => exact (act_ends r p a d).bind fun q d _ => ih q.2 q.1 d

/-- How much is left to do: the text that lies ahead, and the states to return from. -/
def effort (r : Run σ) : Nat := 2 * r.ahead.length + r.states.length

theorem eq_nil_of_effort (r : Run σ) (h : r.effort ≤ 0) : r.ahead = [] :=
  length_eq_zero_iff.mp (by rw [effort] at h; omega)

variable [DecidableEq σ]

theorem effort_of_perform (hg : g.Lively) {rule : Rule σ}
    (hnext : g.next? (r.state g) r.ahead = some (rule, m))
    (h : perform m rule.actions true r d = .ok r' d') :
    r'.effort < r.effort ∧ stuck g rule r r' = false := by
  obtain ⟨hmem, rest, hsplit⟩ := Grammar.next?_eq_some hnext
  obtain ⟨hahead, hoffset, -⟩ := perform_position h
  obtain ⟨hrise, hrefuses⟩ := perform_rise h
  have hlen := (Pattern.describes_of_split? hsplit).minLength_le
  have hprefix := congrArg List.length (Pattern.append_of_split? hsplit)
  rw [length_append] at hprefix
  rw [effort, effort]
  rcases hg _ rule hmem with ⟨hshift, hmin, hle⟩ | ⟨hshift, hlt⟩ | hrefuse
  · rw [hshift, Bool.and_self, if_pos rfl] at hahead hoffset
    rw [hahead]
    rw [Rule.rise] at hle
    refine ⟨by omega, ?_⟩
    have : ¬ r'.offset = r.offset := by omega
    simp [stuck, this]
  · rw [hshift, Bool.and_false, if_neg Bool.false_ne_true] at hahead hoffset
    rw [hahead]
    have hlt' := hlt
    rw [Rule.rise] at hlt
    refine ⟨by omega, ?_⟩
    have : ¬ rule.actions.foldr (·.stateRise + ·) 0 = 0 := by omega
    simp [stuck, Rule.isLevel, this]
  · rw [hrefuses] at hrefuse
    cases hrefuse

theorem step_decreases (hg : g.Lively) (r : Run σ) (d : Document) :
    Yields (r.step g) d (fun r' _ => r'.effort < r.effort) fun e _ => Ends e := by
  rw [step]
  cases hnext : g.next? (r.state g) r.ahead with
  | none => exact .throw fun state => by simp
  | some p =>
    obtain ⟨rule, matched⟩ := p
    refine Yields.bind (R := fun r' _ => r'.effort < r.effort ∧ stuck g rule r r' = false)
      ⟨fun r' d' hok => effort_of_perform hg hnext hok,
        (perform_ends rule.actions true r d).error⟩ fun r' d' h => ?_
    simp only [h.2, Bool.false_eq_true, if_false]
    exact .pure h.1

theorem scan_ends (hg : g.Lively) (limit : Nat) (r : Run σ) (d : Document)
    (h : r.effort ≤ limit) : Yields (r.scan g limit) d (fun _ _ => True) fun e _ => Ends e := by
  induction limit generalizing r d with
  | zero =>
    rw [scan, if_pos (by simpa using (r.eq_nil_of_effort h))]
    exact .pure trivial
  | succ limit ih =>
    rw [scan]
    split_ifs with hemp
    · exact .pure trivial
    · exact (step_decreases hg r d).bind fun r' d' hlt => ih r' d' (by omega)

theorem scan_eq_scan (hg : g.Lively) {limit limit' : Nat} (r : Run σ) (d : Document)
    (h : r.effort ≤ limit) (h' : r.effort ≤ limit') : r.scan g limit d = r.scan g limit' d := by
  induction limit generalizing r d limit' with
  | zero => rw [scan_empty (r.eq_nil_of_effort h), scan_empty (r.eq_nil_of_effort h)]
  | succ limit ih =>
    by_cases hemp : r.ahead = []
    · rw [scan_empty hemp, scan_empty hemp]
    · cases limit' with
      | zero => exact absurd (r.eq_nil_of_effort h') hemp
      | succ limit' =>
        have hne : ¬ r.ahead.isEmpty = true := by simpa using hemp
        rw [scan, scan, if_neg hne, if_neg hne]
        show EStateM.bind (r.step g) (fun r => r.scan g limit) d =
          EStateM.bind (r.step g) (fun r => r.scan g limit') d
        rw [EStateM.bind, EStateM.bind]
        cases hstep : r.step g d with
        | error e d' => rfl
        | ok r' d' =>
          have hlt := (step_decreases hg r d).ok r' d' hstep
          exact ih r' d' (by omega) (by omega)

omit [DecidableEq σ] in
theorem effort_le_limit (r : Run σ) : r.effort ≤ r.limit := by
  rw [effort, limit]
  have : 2 ≤ 1 <<< 40 := by decide
  nlinarith [Nat.mul_le_mul_right
    (r.ahead.length + r.states.length + r.opened.length + 1) this]

end Run

namespace Grammar

variable [DecidableEq σ] {g : Grammar σ}

/-- One rule applies to a run that has text ahead. -/
def Fires (g : Grammar σ) (after before : Run σ × Document) : Prop :=
  before.1.ahead ≠ [] ∧ before.1.step g before.2 = .ok after.1 after.2

/-- Rules take a run and a document to others. -/
abbrev Leads (g : Grammar σ) : Run σ × Document → Run σ × Document → Prop :=
  Relation.ReflTransGen fun before after => g.Fires after before

section Leads

variable {r r' : Run σ} {d d' : Document} {limit : Nat}

theorem Lively.fires (hg : g.Lively) {rule : Rule σ} {m : List Char} (hne : r.ahead ≠ [])
    (hnext : g.next? (r.state g) r.ahead = some (rule, m))
    (h : Run.perform m rule.actions true r d = .ok r' d') : g.Fires (r', d') (r, d) := by
  refine ⟨hne, ?_⟩
  show r.step g d = _
  rw [Run.step, hnext]
  refine bind_eq_ok.mpr ⟨r', d', h, ?_⟩
  rw [(Run.effort_of_perform hg hnext h).2]
  rfl

theorem Leads.backwards {P : Run σ → Document → Prop} (h : g.Leads (r, d) (r', d')) (hend : P r' d')
    (hstep : ∀ {r d r1 d1}, r.ahead ≠ [] → r.step g d = .ok r1 d1 → P r1 d1 → P r d) : P r d := by
  suffices ∀ a, g.Leads a (r', d') → P a.1 a.2 from this _ h
  intro a h
  induction h using Relation.ReflTransGen.head_induction_on with
  | refl => exact hend
  | head hfires _ ih => exact hstep hfires.1 hfires.2 ih

theorem Lively.scan_of_leads (hg : g.Lively) (h : g.Leads (r, d) (r', d')) (hend : r'.ahead = [])
    (hl : r.effort ≤ limit) : r.scan g limit d = .ok r' d' := by
  refine h.backwards (P := fun r d => ∀ limit, r.effort ≤ limit → r.scan g limit d = .ok r' d')
    (fun limit _ => Run.scan_empty hend) (fun hne hstep ih limit hl => ?_) limit hl
  have hlt := (Run.step_decreases hg _ _).ok _ _ hstep
  obtain ⟨limit, rfl⟩ := Nat.exists_eq_succ_of_ne_zero (show limit ≠ 0 by omega)
  rw [Run.scan, if_neg (by simpa using hne)]
  exact bind_eq_ok.mpr ⟨_, _, hstep, ih limit (by omega)⟩

theorem leads_of_scan (h : r.scan g limit d = .ok r' d') : g.Leads (r, d) (r', d') ∧ r'.ahead = [] := by
  induction limit generalizing r d with
  | zero =>
    rw [Run.scan] at h
    split_ifs at h with hemp
    · cases h
      exact ⟨.refl, by simpa using hemp⟩
    · cases h
  | succ limit ih =>
    rw [Run.scan] at h
    split_ifs at h with hemp
    · cases h
      exact ⟨.refl, by simpa using hemp⟩
    · obtain ⟨r1, d1, hstep, h⟩ := bind_eq_ok.mp h
      exact ⟨.head ⟨by simpa using hemp, hstep⟩ (ih h).1, (ih h).2⟩

theorem Lively.tokenize (hg : g.Lively) {path source : String}
    (h : g.Leads ({ place := .startOf path, ahead := source.toList },
      (ofSource path source).setBranch root 0 []) (r, d)) (hahead : r.ahead = [])
    (hends : ∀ s ∈ r.states, g.mayEnd s = true) (hopened : r.opened = []) :
    g.tokenize [] [] root (ofSource path source) = .ok () (d.setBranch root 0 r.out.reverse) := by
  rw [tokenize_ofSource]
  exact bind_eq_ok.mpr ⟨_, _, bind_eq_ok.mpr ⟨_, _, hg.scan_of_leads h hahead (Run.effort_le_limit _),
    Run.finish_eq_ok.mpr ⟨hopened, hends, rfl, rfl⟩⟩, rfl⟩

end Leads

/-- Lexing ends: rules do not apply for ever, so the limit on their number plays no role, and neither
of the two faults of a run that does not move on arises. -/
structure Terminates (g : Grammar σ) : Prop where
  wellFounded : WellFounded g.Fires
  scan_eq : ∀ (r : Run σ) (d : Document) (limit : Nat), r.effort ≤ limit →
    r.scan g limit d = r.scan g r.limit d
  error_ends : ∀ through enter id d e d', g.tokenize through enter id d = .error e d' →
    Run.Ends e

theorem Lively.terminates (hg : g.Lively) : g.Terminates where
  wellFounded := Subrelation.wf
    (fun {after before} h => (Run.step_decreases hg before.1 before.2).ok after.1 after.2 h.2)
    (InvImage.wf (fun p : Run σ × Document => p.1.effort) Nat.lt_wfRel.wf)
  scan_eq r d limit h := Run.scan_eq_scan hg r d h r.effort_le_limit
  error_ends through enter id d e d' he := by
    have hl : Run.Lasting g (fun _ => True) Run.Ends :=
      ⟨fun _ => trivial, fun _ _ => trivial, fun _ _ => trivial, fun _ _ => trivial,
        fun _ _ _ => by simp, fun _ _ _ => by simp⟩
    refine (tokenize_witnesses hl (fun {r} text d _ => ⟨?_, fun _ _ => trivial⟩) through enter id
      d).toYields.error e d' he
    exact Run.scan_ends hg _ _ d (r.load text).effort_le_limit

end Grammar

theorem Template.grammar_lively : Template.grammar.Lively := by
  intro state
  cases state <;> decide

theorem Markup.grammar_lively : Markup.grammar.Lively := by
  intro state
  cases state <;> decide

theorem Stylesheet.grammar_lively : Stylesheet.grammar.Lively := by
  intro state
  cases state <;> decide

theorem Script.grammar_lively : Script.grammar.Lively := by
  intro state
  cases state <;> decide

/-- Lexing ends with each of the four grammars. -/
theorem lexing_ends : Template.grammar.Terminates ∧ Markup.grammar.Terminates ∧
    Stylesheet.grammar.Terminates ∧ Script.grammar.Terminates :=
  ⟨Template.grammar_lively.terminates, Markup.grammar_lively.terminates,
    Stylesheet.grammar_lively.terminates, Script.grammar_lively.terminates⟩

end Stencil
