import Stencil.Media
import Stencil.Proofs.Doc.Mirror
import Stencil.Proofs.Lexing.Course
import Stencil.Proofs.Lexing.Reading

/-!
# Reading a text in two documents

The same text is split into tokens in a document of its own and in a region of another document.
Rule by rule the two runs do the same (`Run.act_alike`, `Run.step_alike`): the tokens of the one
mirror those of the other, or both stop, with **the same fault at another place** (`Grammar.tokenize_alike`).
-/

namespace Stencil

open Branch Document List

variable {d : Document} {id : NodeId} {p : Bool} {b : Branch} {m : List Char} {φ : NodeId → NodeId}
  {σ : Type}

namespace Error

def moveTo (p : Place) : Error → Error
  | lex _ fault near => lex p fault near
  | openToken _ kind => openToken p kind
  | openState _ state => openState p state
  | openBlock _ kind => openBlock p kind
  | scope _ fault => scope p fault
  | template _ fault => template p fault
  | load _ name fault => load p name fault
  | unknownOption _ option => unknownOption p option

/-- The second error is the first one, but for the place. -/
def SameFault (e e' : Error) : Prop := ∃ p, e' = e.moveTo p

theorem SameFault.detail_eq {e e' : Error} (h : e.SameFault e') : e'.detail = e.detail := by
  obtain ⟨p, rfl⟩ := h
  cases e <;> rfl

end Error

def OpenToken.renumber (φ : NodeId → NodeId) (t : OpenToken) : OpenToken :=
  { node := φ t.node, content := t.content.renumber φ }

namespace Run

variable {e : Document} {r s : Run σ}

def renumber (φ : NodeId → NodeId) (p : Place) (r : Run σ) : Run σ :=
  { r with opened := r.opened.map (OpenToken.renumber φ), out := r.out.renumber φ, place := p }

/-- The second run is the first one in other numbers. -/
structure Mirrors (φ : NodeId → NodeId) (r s : Run σ) : Prop where
  eq : ∃ p, s = r.renumber φ p
  opened_ne : ∀ t ∈ r.opened, t.node ≠ root

theorem renumber_append (p : Place) (r : Run σ) (f : Fragment) :
    (r.append f).renumber φ p = (r.renumber φ p).append (f.renumber φ) := by
  simp only [append, renumber]
  cases r.opened with
  | nil => simp only [map_nil, renumber_stack]
  | cons t ts => simp only [map_cons, OpenToken.renumber, renumber_stack]

theorem Mirrors.append (h : r.Mirrors φ s) (f : Fragment) :
    (r.append f).Mirrors φ (s.append (f.renumber φ)) := by
  obtain ⟨⟨p, rfl⟩, hne⟩ := h
  refine ⟨⟨p, (renumber_append p r f).symm⟩, fun t ht => ?_⟩
  rw [Run.append] at ht
  cases ho : r.opened with
  | nil => rw [ho] at ht; cases ht
  | cons t' ts =>
    simp only [ho, mem_cons] at ht
    rw [ho, forall_mem_cons] at hne
    rcases ht with rfl | ht
    · exact hne.1
    · exact hne.2 t ht

theorem Mirrors.fail {α β : Type} {R : α → Document → β → Document → Prop} (h : r.Mirrors φ s)
    (fault : LexFault) :
    Alike Error.SameFault R ((r.fail fault : Edit α) d) ((s.fail fault : Edit β) e) := by
  obtain ⟨⟨p, rfl⟩, -⟩ := h
  exact .error ⟨p, rfl⟩

/-- What two runs have in common that read the same text. -/
def Twins (φ : NodeId → NodeId) (r : Run σ) (d : Document) (s : Run σ) (e : Document) : Prop :=
  Document.Mirror φ d e ∧ r.Mirrors φ s

section

variable (hd : Document.Mirror φ d e) (hr : r.Mirrors φ s)
include hd hr

theorem start_alike {k : Kind} (hk : k.IsMedia) :
    Alike Error.SameFault (Twins φ) (r.start k d) (s.start k e) := by
  obtain ⟨⟨p, rfl⟩, hne⟩ := hr
  have hnew : φ d.size = e.size := by simpa using hd.beyond 0
  refine .ok ⟨hd.create hk _ _, ⟨p, ?_⟩, forall_mem_cons.mpr ⟨ne_of_gt hd.pos, hne⟩⟩
  simp [renumber, OpenToken.renumber, hnew]

theorem stop_alike : Alike Error.SameFault (Twins φ) (r.stop d) (s.stop e) := by
  obtain ⟨⟨p, rfl⟩, hne⟩ := hr
  cases ho : r.opened with
  | nil =>
    have hs : (r.renumber φ p).opened = [] := by simp [renumber, ho]
    rw [stop, stop, ho, hs]
    exact Mirrors.fail ⟨⟨p, rfl⟩, hne⟩ _
  | cons t ts =>
    have hs : (r.renumber φ p).opened = t.renumber φ :: ts.map (OpenToken.renumber φ) := by
      simp [renumber, ho]
    rw [ho, forall_mem_cons] at hne
    rw [stop, stop, ho, hs]
    refine .ok ⟨?_, Mirrors.append (r := { r with opened := ts }) ⟨⟨p, rfl⟩, hne.2⟩ (.node t.node)⟩
    show Document.Mirror φ _ (e.setBranch (φ t.node) 0 (t.content.renumber φ).reverse)
    rw [← renumber_reverse]
    exact hd.setBranch t.node 0 _

theorem act_alike {a : LexAction σ} (ha : ∀ k, a = .start k → k.IsMedia) :
    Alike Error.SameFault (fun x d y e => Twins φ x.1 d y.1 e ∧ y.2 = x.2) (r.act m p a d)
      (s.act m p a e) := by
  cases a with
  | push state =>
    obtain ⟨⟨q, rfl⟩, hne⟩ := hr
    exact .ok ⟨⟨hd, ⟨q, rfl⟩, hne⟩, rfl⟩
  | pop =>
    obtain ⟨⟨q, rfl⟩, hne⟩ := hr
    have hstates : (r.renumber φ q).states = r.states := rfl
    rw [act, act, hstates]
    cases r.states with
    | nil => exact Mirrors.fail ⟨⟨q, rfl⟩, hne⟩ _
    | cons state states => exact .ok ⟨⟨hd, ⟨q, rfl⟩, hne⟩, rfl⟩
  | record => exact .ok ⟨⟨hd, hr.append _⟩, rfl⟩
  | replace text => exact .ok ⟨⟨hd, hr.append _⟩, rfl⟩
  | shift =>
    obtain ⟨⟨q, rfl⟩, hne⟩ := hr
    cases p with
    | false => exact .ok ⟨⟨hd, ⟨q, rfl⟩, hne⟩, rfl⟩
    | true => exact .ok ⟨⟨hd, ⟨q.advance m, rfl⟩, hne⟩, rfl⟩
  | start k =>
    exact (start_alike hd hr (ha k rfl)).bind fun _ _ _ _ _ h => .ok ⟨h, rfl⟩
  | stop => exact (stop_alike hd hr).bind fun _ _ _ _ _ h => .ok ⟨h, rfl⟩
  | fail reason => exact hr.fail _

theorem perform_alike {as : List (LexAction σ)} (ha : ∀ k, .start k ∈ as → k.IsMedia) :
    Alike Error.SameFault (Twins φ) (perform m as p r d) (perform m as p s e) := by
  induction as generalizing r s d e p with
  | nil => exact .ok ⟨hd, hr⟩
  | cons a as ih =>
    refine (act_alike hd hr fun k hk => ha k (hk ▸ mem_cons_self)).bind ?_
    rintro ⟨r', p'⟩ d' ⟨s', q'⟩ e' - ⟨⟨hd', hr'⟩, rfl⟩
    exact ih hd' hr' fun k hk => ha k (mem_cons_of_mem _ hk)

end

end Run

def Grammar.Media {σ : Type} (g : Grammar σ) : Prop :=
  ∀ state, ∀ rule ∈ g.rules state, ∀ k, .start k ∈ rule.actions → k.IsMedia

def LexAction.kind? {σ : Type} : LexAction σ → Option Kind
  | start k => some k
  | _ => none

theorem Grammar.media_of_subset {g : Grammar σ} (h : ∀ state, ∀ k ∈
    (g.rules state).flatMap (·.actions.filterMap LexAction.kind?), k ∈ Kind.mediaTokens) : g.Media := by
  intro state rule hrule k hk
  refine Kind.isMedia_of_mem (h state k ?_)
  exact mem_flatMap.mpr ⟨rule, hrule, mem_filterMap.mpr ⟨_, hk, rfl⟩⟩

namespace Run

variable [DecidableEq σ] {g : Grammar σ} {e : Document}
  {r s : Run σ}

section

variable (hg : g.Media) (hd : Document.Mirror φ d e) (hr : r.Mirrors φ s)
include hg hd hr

theorem step_alike : Alike Error.SameFault (Twins φ) (r.step g d) (s.step g e) := by
  obtain ⟨⟨p, rfl⟩, hne⟩ := hr
  have hnext : g.next? ((r.renumber φ p).state g) (r.renumber φ p).ahead =
      g.next? (r.state g) r.ahead := rfl
  rw [step, step, hnext]
  cases hn : g.next? (r.state g) r.ahead with
  | none => exact Mirrors.fail ⟨⟨p, rfl⟩, hne⟩ _
  | some found =>
    obtain ⟨rule, matched⟩ := found
    obtain ⟨hrule, -⟩ := Grammar.next?_eq_some hn
    refine (perform_alike hd ⟨⟨p, rfl⟩, hne⟩ (hg _ rule hrule)).bind ?_
    rintro r' d' s' e' - ⟨hd', ⟨⟨p', rfl⟩, hne'⟩⟩
    have hstuck : stuck g rule (r.renumber φ p) (r'.renumber φ p') = stuck g rule r r' := rfl
    rw [hstuck]
    split_ifs
    · exact Mirrors.fail ⟨⟨p', rfl⟩, hne'⟩ _
    · exact .ok ⟨hd', ⟨p', rfl⟩, hne'⟩

theorem scan_alike (limit : Nat) :
    Alike Error.SameFault (Twins φ) (r.scan g limit d) (s.scan g limit e) := by
  have hahead : s.ahead = r.ahead := by
    obtain ⟨⟨p, rfl⟩, -⟩ := hr
    rfl
  induction limit generalizing r s d e with
  | zero =>
    have hstate : s.state g = r.state g := by
      obtain ⟨⟨p, rfl⟩, -⟩ := hr
      rfl
    rw [scan, scan, hahead, hstate]
    split_ifs
    · exact .ok ⟨hd, hr⟩
    · exact hr.fail _
  | succ limit ih =>
    rw [scan, scan, hahead]
    split_ifs
    · exact .ok ⟨hd, hr⟩
    · refine (step_alike hg hd hr).bind fun r' d' s' e' _ h => ih h.1 h.2 ?_
      obtain ⟨-, ⟨p, rfl⟩, -⟩ := h
      rfl

theorem read_alike
    (text : String) : Alike Error.SameFault (Twins φ) (r.read g text d) (s.read g text e) := by
  obtain ⟨⟨p, rfl⟩, hne⟩ := hr
  have hlimit : ((r.renumber φ p).load text).limit = (r.load text).limit := by
    simp [limit, load, renumber]
  rw [read, read, hlimit]
  exact scan_alike (r := r.load text) hg hd ⟨⟨p, rfl⟩, hne⟩ _

end

omit [DecidableEq σ] in
theorem finish_alike (hd : Document.Mirror φ d e) (hr : r.Mirrors φ s) :
    Alike Error.SameFault (fun b d b' e => Document.Mirror φ d e ∧ b' = b.renumber φ)
      (r.finish g d) (s.finish g e) := by
  obtain ⟨⟨p, rfl⟩, hne⟩ := hr
  cases ho : r.opened with
  | cons t ts =>
    have hs : (r.renumber φ p).opened = t.renumber φ :: ts.map (OpenToken.renumber φ) := by
      simp [renumber, ho]
    rw [ho, forall_mem_cons] at hne
    rw [finish, finish, ho, hs]
    refine .error ⟨e.place (φ t.node), ?_⟩
    show Error.openToken _ (e.kind (φ t.node)) = _
    rw [hd.kind_eq _ hne.1]
    rfl
  | nil =>
    have hs : (r.renumber φ p).opened = [] := by simp [renumber, ho]
    have hstates : (r.renumber φ p).states = r.states := rfl
    rw [finish, finish, ho, hs, hstates]
    cases r.states.find? (!g.mayEnd ·) with
    | some state => exact .error ⟨p, rfl⟩
    | none => exact .ok ⟨hd, (renumber_reverse _).symm⟩

end Run

namespace Grammar

variable [DecidableEq σ] {g : Grammar σ} {e : Document}
  {b' : Branch} {id' : NodeId}

theorem tokenizeBranches_alike (hg : g.Media) {visit visit' : NodeId → Run σ → Edit (Run σ)}
    (hid : φ id = id') (hd : Document.Mirror φ (d.setBranch id 0 []) (e.setBranch id' 0 []))
    (hb : d.branches id = [b]) (hb' : e.branches id' = [b']) (hn : b.nodes = [])
    (hn' : b'.nodes = []) (ht : b'.text = b.text) :
    Alike Error.SameFault (fun _ d _ e => Document.Mirror φ d e) (g.tokenizeBranches visit id d)
      (g.tokenizeBranches visit' id' e) := by
  subst hid
  rw [tokenizeBranches_eq, tokenizeBranches_eq, Edit.mapBranches_single hb,
    Edit.mapBranches_single hb', Run.feed_eq_read hn, Run.feed_eq_read hn', ht]
  have hr : ({ place := d.place id } : Run σ).Mirrors φ { place := e.place (φ id) } :=
    ⟨⟨e.place (φ id), rfl⟩, fun t ht => by cases ht⟩
  refine Alike.bind (R := fun b d b' e => Document.Mirror φ d e ∧ b' = b.renumber φ)
    ((Run.read_alike hg hd hr _).bind fun r d s e _ h => Run.finish_alike h.1 h.2) ?_
  rintro b1 d1 b2 e1 - ⟨hd1, rfl⟩
  exact .ok (hd1.setBranch id 0 b1)

theorem isTokens_of_tokenize {path t : String}
    (hok : g.tokenize [] [] root (ofSource path t) = .ok () d) : d.IsTokens := by
  obtain ⟨htended, hsteady⟩ := tokenize_tended (grove_ofSource path t) .refl hok
  refine ⟨htended.grove, fun x => ?_, ?_⟩
  · rw [hsteady.payload_eq, (node_ofSource path t x).2]
  · rw [hsteady.kind_eq _ (by rw [ofSource_eq]; exact Nat.one_pos), ofSource_eq]
    rfl

theorem tokenize_alike (hg : g.Media) (path : String) {region : NodeId} (hlt : region < e.size)
    (hb : e.branches region = [b]) (hn : b.nodes = []) (through enter : List Kind) :
    Alike Error.SameFault
      (fun _ d _ e' => Document.Mirror (standing region e.size) d e' ∧ d.IsTokens)
      (g.tokenize [] [] root (ofSource path b.text))
      (g.tokenize through enter region e) := by
  refine Alike.mono (R := fun _ d _ e' => Document.Mirror (standing region e.size) d e')
    ?_ fun _ d _ e' hok hmirror => ⟨hmirror, isTokens_of_tokenize hok⟩
  obtain ⟨b0, hb0, hn0, ht0⟩ := branches_ofSource path b.text
  have hsize : (ofSource path b.text).size = 1 := by
    rw [ofSource_eq]
    rfl
  have hemp : ∀ {d : Document} {id : NodeId} {b : Branch}, id < d.size → d.branches id = [b] →
      (d.setBranch id 0 []).branches id = [[]] := fun hlt hb => by
    rw [Document.branches] at hb
    rw [Document.branches, setBranch, modify_self hlt, Node.setBranch_zero, hb]
    rfl
  have hstart : Document.Mirror (standing region (e.setBranch region 0 []).size)
      ((ofSource path b.text).setBranch 0 0 []) (e.setBranch region 0 []) := by
    refine .start ?_ ?_ (hemp (by rw [hsize]; exact Nat.one_pos) hb0) (hemp hlt hb)
    · rw [setBranch, size_modify]
      exact hlt
    · rw [setBranch, size_modify, hsize]
  rw [show (e.setBranch region 0 []).size = e.size from size_modify _ _ _] at hstart
  rw [tokenize_eq, tokenize_eq]
  exact tokenizeBranches_alike hg rfl hstart hb0 hb hn0 hn ht0.symm

end Grammar

theorem compileSource_eq_ok {l : Language} {path source out : String} :
    l.compileSource path source = .ok out ↔
      ∃ a, l.process [] [] root (ofSource path source) = .ok () a ∧ a.output = out := by
  rw [Language.compileSource]
  constructor
  · intro h
    split at h
    case h_1 a ha =>
      cases h
      exact ⟨a, ha, rfl⟩
    case h_2 => cases h
  · rintro ⟨a, ha, rfl⟩
    rw [ha]

end Stencil
