import Stencil.Lexing.Run
import Stencil.Proofs.Outcome

/-!
# What runs do

What an action does to a run is said once (`Run.Acts`), and so is what a rule, a scan and the treatment
of a node are made of (`step_eq_ok`, `scan_induction`, `visit_succ_eq_ok`).
-/

namespace Stencil

open List

variable {d d' : Document} {L : List NodeId} {σ : Type}

namespace LexAction

def shifts : LexAction σ → Bool
  | shift => true
  | _ => false

def refuses : LexAction σ → Bool
  | fail _ => true
  | _ => false

end LexAction

namespace Run

variable {r r' : Run σ} {m : List Char} {p p' : Bool}
  {a : LexAction σ} {as : List (LexAction σ)}

section Append

variable (r : Run σ) (f : Fragment)

theorem ahead_append : (r.append f).ahead = r.ahead := by
  rw [append]
  split <;> rfl

theorem offset_append : (r.append f).offset = r.offset := by
  rw [append]
  split <;> rfl

theorem place_append : (r.append f).place = r.place := by
  rw [append]
  split <;> rfl

theorem states_append : (r.append f).states = r.states := by
  rw [append]
  split <;> rfl

end Append

theorem start_eq_ok {kind : Kind} (h : r.start kind d = .ok r' d') :
    r' = { r with opened := { node := d.size } :: r.opened } ∧
      d' = (d.create kind r.place).2 := by
  cases h
  exact ⟨rfl, rfl⟩

theorem stop_eq_ok (h : r.stop d = .ok r' d') : ∃ t ts, r.opened = t :: ts ∧
    r' = { r with opened := ts }.append (.node t.node) ∧
      d' = d.setBranch t.node 0 t.content.reverse := by
  unfold stop at h
  cases ho : r.opened with
  | nil =>
    rw [ho] at h
    cases h
  | cons t ts =>
    rw [ho] at h
    cases h
    exact ⟨t, ts, rfl, rfl, rfl⟩

/-- What an action that succeeds does to a document and a run, and to whether the matched text still
lies ahead. -/
inductive Acts (d : Document) (r : Run σ) (m : List Char) (p : Bool) :
    LexAction σ → Document → Run σ → Bool → Prop where
  | push {state : σ} : Acts d r m p (.push state) d { r with states := state :: r.states } p
  | pop {state : σ} {states : List σ} : r.states = state :: states →
      Acts d r m p .pop d { r with states } p
  | record : Acts d r m p .record d (r.append (.text (String.ofList m))) p
  | replace {text : String} : Acts d r m p (.replace text) d (r.append (.text text)) p
  | shift : Acts d r m p .shift d (if p then r.shift m else r) false
  | start {kind : Kind} {r' : Run σ} {d' : Document} : r.start kind d = .ok r' d' →
      Acts d r m p (.start kind) d' r' p
  | stop {r' : Run σ} {d' : Document} : r.stop d = .ok r' d' → Acts d r m p .stop d' r' p

theorem acts (h : r.act m p a d = .ok (r', p') d') : Acts d r m p a d' r' p' := by
  cases a with
  | push state => cases h; exact .push
  | pop =>
    unfold act at h
    cases hs : r.states with
    | nil => rw [hs] at h; cases h
    | cons state states => rw [hs] at h; cases h; exact .pop hs
  | record => cases h; exact .record
  | replace text => cases h; exact .replace
  | shift => cases h; exact .shift
  | start kind =>
    obtain ⟨r1, d1, hs, h⟩ := bind_eq_ok.mp h
    cases h
    exact .start hs
  | stop =>
    obtain ⟨r1, d1, hs, h⟩ := bind_eq_ok.mp h
    cases h
    exact .stop hs
  | fail reason => cases h

theorem act_error {e : Error} (h : r.act m p a d = .error e d') :
    ∃ fault, e = .lex r.place fault r.near ∧ (a = .pop ∧ r.states = [] ∧ fault = .leftFirstState ∨
      a = .stop ∧ r.opened = [] ∧ fault = .unbalancedClose ∨
        ∃ reason, a = .fail reason ∧ fault = .refused reason) := by
  cases a with
  | pop =>
    unfold act at h
    cases hs : r.states with
    | nil => rw [hs] at h; cases h; exact ⟨_, rfl, .inl ⟨rfl, rfl, rfl⟩⟩
    | cons state states => rw [hs] at h; cases h
  | stop =>
    unfold act stop at h
    cases ho : r.opened with
    | nil => rw [ho] at h; cases h; exact ⟨_, rfl, .inr (.inl ⟨rfl, rfl, rfl⟩)⟩
    | cons token tokens => rw [ho] at h; cases h
  | fail reason => cases h; exact ⟨_, rfl, .inr (.inr ⟨reason, rfl, rfl⟩)⟩
  | _ => cases h

theorem act_position (h : r.act m p a d = .ok (r', p') d') :
    r'.ahead = (if p && a.shifts then r.ahead.drop m.length else r.ahead) ∧
      r'.offset = (if p && a.shifts then r.offset + m.length else r.offset) ∧
      r'.place = (if p && a.shifts then r.place.advance m else r.place) ∧
      p' = (p && !a.shifts) := by
  cases acts h with
  | shift => cases p <;> simp [LexAction.shifts, Run.shift]
  | start hs =>
    obtain ⟨rfl, -⟩ := start_eq_ok hs
    simp [LexAction.shifts]
  | stop hs =>
    obtain ⟨t, ts, -, rfl, -⟩ := stop_eq_ok hs
    simp [LexAction.shifts, ahead_append, offset_append, place_append]
  | _ => simp [LexAction.shifts, ahead_append, offset_append, place_append]

theorem act_rise (h : r.act m p a d = .ok (r', p') d') :
    (r'.states.length : Int) = r.states.length + a.stateRise := by
  cases acts h with
  | pop hs => simp [LexAction.stateRise, hs]
  | shift => cases p <;> simp [LexAction.stateRise, Run.shift]
  | start hs =>
    obtain ⟨rfl, -⟩ := start_eq_ok hs
    simp [LexAction.stateRise]
  | stop hs =>
    obtain ⟨t, ts, -, rfl, -⟩ := stop_eq_ok hs
    simp [LexAction.stateRise, states_append]
  | _ => simp [LexAction.stateRise, states_append]

theorem perform_position (h : perform m as p r d = .ok r' d') :
    r'.ahead = (if p && as.any LexAction.shifts then r.ahead.drop m.length else r.ahead) ∧
      r'.offset = (if p && as.any LexAction.shifts then r.offset + m.length else r.offset) ∧
      r'.place = if p && as.any LexAction.shifts then r.place.advance m else r.place := by
  induction as generalizing r p d with
  | nil => cases h; simp
  | cons a as ih =>
    obtain ⟨⟨r1, p1⟩, d1, ha, h⟩ := bind_eq_ok.mp h
    obtain ⟨hahead, hoffset, hplace, rfl⟩ := act_position ha
    obtain ⟨hahead', hoffset', hplace'⟩ := ih h
    rw [hahead', hoffset', hplace', hahead, hoffset, hplace, any_cons]
    cases p <;> cases a.shifts <;> simp

variable [DecidableEq σ] {g : Grammar σ}

theorem step_eq_ok (h : r.step g d = .ok r' d') : ∃ rule m,
    g.next? (r.state g) r.ahead = some (rule, m) ∧ perform m rule.actions true r d = .ok r' d' := by
  unfold step at h
  cases hnext : g.next? (r.state g) r.ahead with
  | none => rw [hnext] at h; cases h
  | some found =>
    obtain ⟨rule, m⟩ := found
    rw [hnext] at h
    obtain ⟨after, d1, hperform, h⟩ := bind_eq_ok.mp h
    split_ifs at h
    · cases h
    · obtain ⟨rfl, rfl⟩ := pure_eq_ok.mp h
      exact ⟨rule, m, rfl, hperform⟩

theorem scan_empty {limit : Nat} (h : r.ahead = []) : r.scan g limit d = .ok r d := by
  cases limit <;> rw [scan, h] <;> rfl

theorem scan_induction {P : Document → Run σ → Prop} {limit : Nat}
    (hstep : ∀ {d d' : Document} {r r' : Run σ}, P d r → r.step g d = .ok r' d' → P d' r')
    (h : P d r) (hok : r.scan g limit d = .ok r' d') : P d' r' ∧ r'.ahead = [] := by
  induction limit generalizing r d with
  | zero =>
    rw [scan] at hok
    split_ifs at hok with hemp
    · cases hok; exact ⟨h, isEmpty_iff.mp hemp⟩
    · cases hok
  | succ limit ih =>
    rw [scan] at hok
    split_ifs at hok with hemp
    · cases hok; exact ⟨h, isEmpty_iff.mp hemp⟩
    · obtain ⟨r1, d1, hs, hok⟩ := bind_eq_ok.mp hok
      exact ih (hstep h hs) hok

/-- What reading text and treating nodes keep. The nodes that have not been treated yet are known. -/
structure Feeds (g : Grammar σ) (visit : NodeId → Run σ → Edit (Run σ))
    (P : List NodeId → Document → Run σ → Prop) : Prop where
  read : ∀ {L : List NodeId} {d d' : Document} {r r' : Run σ} {s : String}, P L d r →
    r.read g s d = .ok r' d' → P L d' r'
  visit : ∀ {id : NodeId} {L : List NodeId} {d d' : Document} {r r' : Run σ}, P (id :: L) d r →
    visit id r d = .ok r' d' → P L d' r'

namespace Feeds

variable {visit : NodeId → Run σ → Edit (Run σ)} {P : List NodeId → Document → Run σ → Prop}
  (hP : Feeds g visit P)
include hP

theorem feed {b : Branch} {s : String} (h : P (b.nodes ++ L) d r)
    (hok : Run.feed g visit b s r d = .ok r' d') : P L d' r' := by
  induction b generalizing s r d with
  | nil => exact hP.read h hok
  | cons f b ih =>
    cases f with
    | text t => exact ih h hok
    | node id =>
      obtain ⟨r1, d1, hr, hok⟩ := bind_eq_ok.mp hok
      obtain ⟨r2, d2, hv, hok⟩ := bind_eq_ok.mp hok
      exact ih (hP.visit (hP.read h hr) hv) hok

theorem feed_all {bs : List Branch} (h : P (bs.flatMap Branch.nodes ++ L) d r)
    (hok : bs.foldlM (fun r b => Run.feed g visit b "" r) r d = .ok r' d') : P L d' r' := by
  induction bs generalizing r d with
  | nil => cases hok; exact h
  | cons b bs ih =>
    rw [flatMap_cons, append_assoc] at h
    rw [foldlM_cons] at hok
    obtain ⟨r1, d1, hfeed, hok⟩ := bind_eq_ok.mp hok
    exact ih (hP.feed h hfeed) hok

end Feeds

end Run

namespace Grammar

variable [DecidableEq σ] {g : Grammar σ} {r r' : Run σ} {id : NodeId}
  {through enter : List Kind} {levels : Nat}

theorem tokenize_eq (g : Grammar σ) (through enter : List Kind) (id : NodeId) (d : Document) :
    g.tokenize through enter id d = g.tokenizeBranches (g.visit through enter d.size) id d := by
  rw [tokenize, get_bind]

theorem tokenizeBranches_eq (g : Grammar σ) (visit : NodeId → Run σ → Edit (Run σ)) (id : NodeId)
    (d : Document) : g.tokenizeBranches visit id d = Edit.mapBranches id (fun b =>
      Run.feed g visit b "" { place := d.place id } >>= fun r => r.finish g) d := by
  rw [tokenizeBranches, get_bind]

theorem visit_succ_eq_ok (h : g.visit through enter (levels + 1) id r d = .ok r' d') :
    (d.hasKind id through = true ∧ (d.branches id).foldlM
      (fun r b => Run.feed g (g.visit through enter levels) b "" r) (r.seek (d.place id))
        (d.clear id) = .ok r' d') ∨
    r' = r.append (.node id) ∧ (d.hasKind id enter = true ∧
      g.tokenizeBranches (g.visit through enter levels) id d = .ok () d' ∨ d' = d) := by
  rw [visit, get_bind] at h
  split_ifs at h with hthrough
  · exact .inl ⟨hthrough, h⟩
  · rw [get_bind] at h
    split_ifs at h with henter
    · obtain ⟨_, d1, htok, h⟩ := bind_eq_ok.mp h
      obtain ⟨rfl, rfl⟩ := pure_eq_ok.mp h
      exact .inr ⟨rfl, .inl ⟨henter, htok⟩⟩
    · obtain ⟨rfl, rfl⟩ := pure_eq_ok.mp h
      exact .inr ⟨rfl, .inr rfl⟩

end Grammar

end Stencil
