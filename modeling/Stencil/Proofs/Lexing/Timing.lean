import Stencil.Proofs.Doc.Standing
import Stencil.Proofs.Lexing.Balance

/-!
# Tokens start where their text does

A run keeps a place, and a token gets the place that the run is at when the token starts. A rule may
start tokens before it moves on and after it; what matters is that it has by then added as much text as
it has moved past (`LexAction.Timely`). In a grammar where all rules do so (`Grammar.Punctual`) the
place of a token belongs to the text that has been built in front of it.

This module treats a stretch of text (`Run.read_timed`): if the place of the run belongs to what is
built so far, then the tokens that are made keep to the timetable, and so do the errors.
-/

namespace Stencil

open Document List String

variable {added before matched : String} {σ : Type}

namespace Place

theorem advance_append (p : Place) (a b : List Char) : p.advance (a ++ b) = (p.advance a).advance b :=
  foldl_append

@[simp] theorem path_advance (p : Place) (text : List Char) : (p.advance text).path = p.path := by
  induction text generalizing p with
  | nil => rfl
  | cons c text ih =>
    have hnext : (p.next c).path = p.path := by rw [next]; split_ifs <;> rfl
    rw [advance, foldl_cons]
    exact (ih (p.next c)).trans hnext

end Place

structure Timetable where
  /-- Nodes with this number or a higher one are new. -/
  since : NodeId
  /-- Whether a node may stand behind a text and have a place. -/
  arrives : String → NodeId → Place → Prop
  /-- Whether an error may point at a place. -/
  fails : Place → Prop
  fails_of_arrives : ∀ {pre : String} {x : NodeId} {p : Place}, since ≤ x → arrives pre x p → fails p

namespace Timetable

/-- A new node may stand behind the text and have the place. -/
def Ready (t : Timetable) (before : String) (p : Place) : Prop :=
  ∀ x, t.since ≤ x → t.arrives before x p

theorem Ready.fails {t : Timetable} {p : Place} (h : t.Ready before p) : t.fails p :=
  t.fails_of_arrives (le_refl t.since) (h t.since (le_refl _))

/-- The error is one of splitting text, and may point where it does. -/
def Allows (t : Timetable) : Error → Prop
  | .lex p _ _ | .openToken p _ | .openState p _ => t.fails p
  | _ => False

end Timetable

namespace LexAction

def starts : LexAction σ → Bool
  | start _ => true
  | _ => false

/-- Whenever a token starts, the text that the actions have added so far is the text they have moved
past. -/
def Timely (matched : String) : List (LexAction σ) → (passed added : String) → Stacks σ → Prop
  | [], _, _, _ => True
  | a :: as, passed, added, s =>
    (a.starts = true → added = passed) ∧ ∀ text s', a.emit matched s = some (text, s') →
      Timely matched as (if a.shifts then matched else passed) (added ++ text) s'

theorem timely_of_no_start {passed : String} {as : List (LexAction σ)} {s : Stacks σ}
    (h : as.all (!·.starts) = true) : Timely matched as passed added s := by
  induction as generalizing passed added s with
  | nil => trivial
  | cons a as ih =>
    rw [all_cons, Bool.and_eq_true] at h
    refine ⟨fun ha => ?_, fun text s' _ => ih h.2⟩
    rw [ha] at h
    exact absurd h.1 (by decide)

/-- Whether a token starts, if at all, in front of everything but changes of state. -/
def startsFirst : List (LexAction σ) → Bool
  | push _ :: as | pop :: as => startsFirst as
  | _ :: as => as.all (!·.starts)
  | [] => true

theorem timely_of_startsFirst {as : List (LexAction σ)} {s : Stacks σ}
    (h : startsFirst as = true) : Timely matched as "" "" s := by
  induction as generalizing s with
  | nil => trivial
  | cons a as ih =>
    refine ⟨fun _ => rfl, fun text s' hemit => ?_⟩
    cases a with
    | push state => cases hemit; exact ih h
    | pop =>
      rw [emit] at hemit
      split at hemit
      · cases hemit
      · cases hemit; exact ih h
    | _ => exact timely_of_no_start h

end LexAction

/-- A grammar whose rules start tokens on time. -/
def Grammar.Punctual {σ : Type} (g : Grammar σ) : Prop :=
  ∀ state, ∀ r ∈ g.rules state, ∀ matched s, LexAction.Timely matched r.actions "" "" s

namespace Run

variable {d d' : Document} {r r' : Run σ} {L : List NodeId} {t : Timetable}
  {m : List Char} {p p' : Bool} {a : LexAction σ} {as : List (LexAction σ)}

/-- All that a run has built keeps to the timetable, and the tokens that are open are new. -/
structure OnTime (t : Timetable) (before : String) (d : Document) (r : Run σ) : Prop where
  timed : r.pile.Timed d t.arrives before
  recent : ∀ x ∈ r.openNodes, t.since ≤ x

section

variable (h : r.OnTime t before d)
include h

theorem OnTime.of_pile (hp : r'.pile = r.pile) : r'.OnTime t before d := by
  refine ⟨by rw [hp]; exact h.timed, ?_⟩
  rw [openNodes_eq, hp, ← openNodes_eq]
  exact h.recent

theorem OnTime.append {f : Fragment}
    (hf : d.Timed t.arrives (before ++ r.built d) [f]) : (r.append f).OnTime t before d := by
  refine ⟨?_, by rw [openNodes_append]; exact h.recent⟩
  rw [pile_append, Pile.timed_add]
  exact ⟨h.timed, hf⟩

theorem OnTime.append_text (s : String) : (r.append (.text s)).OnTime t before d :=
  h.append (timed_cons_text.mpr timed_nil)

theorem OnTime.of_frame (hr : r.Sound d L) (hf : d.Frame d' r.loose) : r.OnTime t before d' :=
  ⟨h.timed.of_agrees fun _ hx => hf.agrees hr.grove hr.plain hx (hr.lt_size hx), h.recent⟩

theorem OnTime.start {kind : Kind} (hr : r.Sound d L)
    (hn : t.since ≤ d.size) (hready : t.Ready (before ++ r.built d) r.place)
    (hok : r.start kind d = .ok r' d') : r'.OnTime t before d' := by
  have hsteady := (hr.toHeld.start hok).steady
  obtain ⟨rfl, rfl⟩ := start_eq_ok hok
  have hframe := (hr.frame_create kind r.place).mono (subset_append_left r.loose L)
  have hplace : (d.create kind r.place).2.place d.size = r.place := by
    rw [Document.place, Document.create_self]
  refine ⟨?_, fun x hx => ?_⟩
  · show Pile.Timed _ _ _ { r.pile with opened := (d.size, []) :: r.pile.opened }
    rw [Pile.timed_open, hplace]
    refine ⟨(h.of_frame hr hframe).timed, ?_⟩
    have hbuilt : r.pile.written (d.create kind r.place).2 = r.built d := hr.built_eq hframe hsteady
    rw [hbuilt]
    exact hready d.size hn
  · rcases mem_cons.mp hx with rfl | hx
    · exact hn
    · exact h.recent x hx

theorem OnTime.stop (hr : r.Sound d L) (hok : r.stop d = .ok r' d') : r'.OnTime t before d' := by
  have hsteady := (hr.toHeld.stop hok).steady
  obtain ⟨token, tokens, ho, rfl, rfl⟩ := stop_eq_ok hok
  have hc := hr.closing ho
  set r1 : Run σ := { r with opened := tokens } with hr1
  set d1 := d.setBranch token.node 0 token.content.reverse with hd1
  have hlt : token.node < d.size := hc.grove.lt_head
  have hframe := (hc.grove.fill hc.payload_eq hc.branches_eq).2
  have hframe1 : d.Frame d1 r1.loose :=
    (hframe.mono (subset_append_right _ _)).mono (subset_append_left _ _)
  have hrest : r1.Sound d L := ⟨hc.rest, hr.plain⟩
  -- the pile with the token open, taken apart
  have hpile : r.pile = { r1.pile with opened := (token.node, token.content) :: r1.pile.opened } := by
    simp only [pile, hr1, ho, map_cons]
  have htimed := h.timed
  rw [hpile] at htimed
  obtain ⟨hout, hopened, htoken, hcontent⟩ := htimed
  have hopen : r.openNodes = token.node :: r1.openNodes := by simp [openNodes, ho, hr1]
  have hrecent := h.recent
  rw [hopen, forall_mem_cons] at hrecent
  have h1 : r1.OnTime t before d := ⟨⟨hout, hopened⟩, hrecent.2⟩
  refine (h1.of_frame hrest hframe1).append (timed_cons_node.mpr ⟨⟨?_, fun i => ?_⟩,
    timed_nil⟩)
  · rw [hrest.built_eq hframe1 hsteady, Document.place, hd1, Document.setBranch,
      Document.modify_of_eq Node.place rfl]
    simpa only [built, Pile.text, Document.text, Document.place, String.append_assoc] using htoken
  · have hnode : d1.node token.node =
        { d.node token.node with branches := [token.content.reverse] } := by
      rw [hd1, Document.setBranch, modify_self hlt, Node.setBranch_zero, hc.branches_eq]
      rfl
    cases i with
    | succ i =>
      have hemp : d1.branch token.node (i + 1) = [] := by
        rw [branch, hnode]
        rfl
      rw [hemp]
      exact timed_nil
    | zero =>
      have hbranch : d1.branch token.node 0 = token.content.reverse := by
        rw [branch, hnode]
        rfl
      have hlead : d1.lead token.node 0 = (d.kind token.node).opener := by
        rw [lead_of_none (by rw [hnode]; exact hc.payload_eq), take_zero,
          join_nil, append_empty, hsteady.kind_eq _ hlt]
      rw [hbranch, hlead, hrest.built_eq hframe1 hsteady]
      have hcontent' : d.Timed t.arrives (before ++ r1.built d ++ (d.kind token.node).opener)
          token.content.reverse := by
        simpa only [built, Pile.text, Document.text, String.append_assoc] using hcontent
      refine hcontent'.of_agrees fun c hcmem => ?_
      exact hframe.agrees hc.grove hr.plain (List.mem_append_left _ hcmem)
        (hc.grove.lt_of_mem (mem_cons_of_mem _ (List.mem_append_left _ hcmem)))

theorem OnTime.act (hr : r.Sound d L) (hn : t.since ≤ d.size)
    (hready : a.starts = true → t.Ready (before ++ r.built d) r.place)
    (hok : r.act m p a d = .ok (r', p') d') : r'.OnTime t before d' := by
  cases acts hok with
  | push => exact h.of_pile rfl
  | pop => exact h.of_pile rfl
  | record => exact h.append_text _
  | replace => exact h.append_text _
  | shift => cases p <;> exact h.of_pile rfl
  | start hs => exact h.start hr hn (hready rfl) hs
  | stop hs => exact h.stop hr hs

theorem OnTime.perform {q : Place} {text : String} (hr : r.Sound d L) (hn : t.since ≤ d.size)
    (htimely : LexAction.Timely (String.ofList m) as (if p then "" else String.ofList m) added
      (r.shape d)) (hbuilt : before ++ r.built d = text ++ added)
    (hplace : r.place = if p then q else q.advance m) (h0 : t.Ready text q)
    (h1 : t.Ready (text ++ String.ofList m) (q.advance m)) :
    Yields (Run.perform m as p r) d (fun r' d' => r'.OnTime t before d') fun e _ => t.Allows e := by
  induction as generalizing r d p added with
  | nil => exact .pure h
  | cons a as ih =>
    obtain ⟨hstart, hrest⟩ := htimely
    have hready : a.starts = true → t.Ready (before ++ r.built d) r.place := by
      intro ha
      rw [hbuilt, hstart ha, hplace]
      cases p with
      | true => simpa using h0
      | false => simpa using h1
    have hact : Yields (r.act m p a) d (fun q d' => q.1.OnTime t before d') fun e _ => t.Allows e := by
      refine ⟨fun q d' hok => h.act hr hn hready hok, fun e d' he => ?_⟩
      obtain ⟨fault, rfl, -⟩ := act_error he
      show t.fails r.place
      rw [hplace]
      cases p with
      | true => exact h0.fails
      | false => exact h1.fails
    refine hact.self.bind fun ⟨r1, p1⟩ d1 ⟨hok, honTime⟩ => ?_
    obtain ⟨text', hemit, hmoves⟩ := hr.act hok
    obtain ⟨-, -, hplace1, hp1⟩ := act_position hok
    have htimely' : LexAction.Timely (String.ofList m) as (if p1 then "" else String.ofList m)
        (added ++ text') (r1.shape d1) := by
      have := hrest _ _ hemit
      rw [hp1]
      cases p <;> cases hsh : a.shifts <;> simpa [hsh] using this
    have hbuilt' : before ++ r1.built d1 = text ++ (added ++ text') := by
      rw [hmoves.built_eq, ← String.append_assoc, hbuilt, String.append_assoc]
    have hplace' : r1.place = if p1 then q else q.advance m := by
      rw [hplace1, hplace, hp1]
      cases p <;> cases a.shifts <;> simp
    exact ih honTime hmoves.sound (le_trans hn hmoves.frame.size_le) htimely' hbuilt' hplace'

end

section Stretch

variable [DecidableEq σ] {g : Grammar σ} {fits : Stacks σ → Prop} {s : String}

theorem step_place (h : r.step g d = .ok r' d') :
    ∃ a, r.ahead = a ++ r'.ahead ∧ r'.place = r.place.advance a := by
  obtain ⟨rule, matched, hnext, hperform⟩ := step_eq_ok h
  obtain ⟨-, rest, hsplit⟩ := Grammar.next?_eq_some hnext
  obtain ⟨hahead, -, hplace⟩ := perform_position hperform
  rw [Bool.true_and] at hahead hplace
  cases hshift : rule.actions.any LexAction.shifts with
  | true =>
    rw [hshift, if_pos rfl] at hahead hplace
    exact ⟨matched, by rw [hahead, Pattern.append_of_split? hsplit], hplace⟩
  | false =>
    rw [hshift] at hahead hplace
    exact ⟨[], hahead.symm, hplace⟩

/-- Wherever in the text ahead a token starts, it keeps to the timetable. -/
def Clear (t : Timetable) (before : String) (d : Document) (r : Run σ) : Prop :=
  ∀ a b, r.ahead = a ++ b → t.Ready (before ++ r.built d ++ String.ofList a) (r.place.advance a)

section

variable (hg : g.Lossless fits) (hpun : g.Punctual) (hr : r.Sound d L) (hf : fits (r.shape d))
  (h : r.OnTime t before d) (hn : t.since ≤ d.size)
include hg hpun hr hf h hn

theorem step_timed (hclear : r.Clear t before d) :
    Yields (r.step g) d
      (fun r' d' => r'.OnTime t before d' ∧ r'.Clear t before d') fun e _ => t.Allows e := by
  have hready := hclear [] r.ahead rfl
  rw [ofList_nil, append_empty] at hready
  have hstep : Yields (r.step g) d (fun r' d' => r'.OnTime t before d') fun e _ => t.Allows e := by
    rw [step]
    cases hnext : g.next? (r.state g) r.ahead with
    | none => exact .throw hready.fails
    | some q =>
      obtain ⟨rule, matched⟩ := q
      obtain ⟨hrule, rest, hsplit⟩ := Grammar.next?_eq_some hnext
      have hmatched := hclear matched _ (Pattern.append_of_split? hsplit).symm
      have hperform := h.perform (m := matched) (p := true) hr hn
        (hpun _ rule hrule (String.ofList matched) (r.shape d)) (append_empty).symm rfl
        hready hmatched
      refine hperform.self.bind ?_
      rintro after d1 ⟨hok, hafter⟩
      split_ifs
      · show Yields (throw _) _ _ _
        refine .throw ?_
        show t.fails after.place
        rw [(perform_position hok).2.2]
        split_ifs
        · exact hmatched.fails
        · exact hready.fails
      · exact .pure hafter
  refine hstep.self.mono ?_ fun _ _ he => he
  rintro r' d' ⟨hok, honTime⟩
  refine ⟨honTime, fun a b hab => ?_⟩
  obtain ⟨s, hread, hs⟩ := step_reads hg hr hf hok
  obtain ⟨c, hahead, hplace⟩ := step_place hok
  have hsc : s = String.ofList c := by
    rw [hahead, String.ofList_append] at hs
    exact String.append_left_inj _ |>.mp hs
  have := hclear (c ++ a) b (by rw [hahead, hab, List.append_assoc])
  rw [String.ofList_append, Place.advance_append, ← hplace, ← hsc] at this
  rw [hread.built_eq]
  simpa only [String.append_assoc] using this

theorem scan_timed {limit : Nat} (hclear : r.Clear t before d) :
    Yields (r.scan g limit) d
      (fun r' d' => r'.OnTime t before d' ∧ t.fails r'.place ∧ r'.place.path = r.place.path)
      fun e _ => t.Allows e := by
  induction limit generalizing r d with
  | zero =>
    have hfails := (hclear [] r.ahead rfl).fails
    rw [scan]
    split_ifs
    · exact .pure ⟨h, hfails, rfl⟩
    · exact .throw hfails
  | succ limit ih =>
    rw [scan]
    split_ifs
    · exact .pure ⟨h, (hclear [] r.ahead rfl).fails, rfl⟩
    · refine (step_timed hg hpun hr hf h hn hclear).self.bind ?_
      rintro r1 d1 ⟨hok, h1, hclear1⟩
      obtain ⟨s, hread, -⟩ := step_reads hg hr hf hok
      obtain ⟨a, -, hplace⟩ := step_place hok
      have hpath : r1.place.path = r.place.path := by rw [hplace, Place.path_advance]
      rw [← hpath]
      exact ih hread.sound hread.fits_shape h1 (le_trans hn hread.frame.size_le) hclear1

theorem read_timed (hready : ∀ a b, s.toList = a ++ b →
      t.Ready (before ++ r.built d ++ String.ofList a) (r.place.advance a)) :
    Yields (r.read g s) d
      (fun r' d' => r'.OnTime t before d' ∧ t.fails r'.place ∧ r'.place.path = r.place.path)
      fun e _ => t.Allows e :=
  scan_timed (r := r.load s) hg hpun (hr.load s) hf (h.of_pile rfl) hn hready

end

theorem read_empty (g : Grammar σ) (r : Run σ) : r.read g "" = pure (r.load "") := by
  rw [read]
  cases hl : (r.load "").limit with
  | zero => rfl
  | succ n => rfl

end Stretch

end Run

end Stencil
