import Stencil.Proofs.Doc.Grove
import Stencil.Proofs.Doc.Pile
import Stencil.Proofs.Lexing.Running

/-!
# What a run builds

A run holds nodes that are in no slot: those in what it has built and those in its open tokens. What it
has built is written as text: a token that is still open has its opening delimiter and its content so
far. Every action adds a piece to that text (`Run.Sound.act`): the matched text, the delimiter of a
token that starts or stops, or nothing.
-/

namespace Stencil

open List Node String

variable {d d' d'' : Document} {L : List NodeId} {x : NodeId} {kind : Kind} {σ : Type}

namespace Kind

/-- The text written before the children of a node of the kind. -/
def opener (k : Kind) : String := (k.delimiters.getD ("", "")).1

/-- The text written after the children of a node of the kind. -/
def closer (k : Kind) : String := (k.delimiters.getD ("", "")).2

end Kind

/-- What the actions of rules depend on: the states above the initial one, and the closing
delimiters of the open tokens, the innermost first. -/
@[ext] structure Stacks (σ : Type) where
  states : List σ := []
  owed : List String := []

namespace LexAction

/-- What an action adds to the text that is built, and the stacks after it. -/
def emit (matched : String) : LexAction σ → Stacks σ → Option (String × Stacks σ)
  | push state, s => some ("", { s with states := state :: s.states })
  | pop, s =>
    match s.states with
    | [] => none
    | _ :: states => some ("", { s with states })
  | record, s => some (matched, s)
  | replace text, s => some (text, s)
  | shift, s => some ("", s)
  | start kind, s => some (kind.opener, { s with owed := kind.closer :: s.owed })
  | stop, s =>
    match s.owed with
    | [] => none
    | closer :: owed => some (closer, { s with owed })
  | fail _, _ => none

def emitAll (matched : String) : List (LexAction σ) → Stacks σ → Option (String × Stacks σ)
  | [], s => some ("", s)
  | a :: as, s =>
    match a.emit matched s with
    | none => none
    | some (text, s) =>
      match emitAll matched as s with
      | none => none
      | some (more, s) => some (text ++ more, s)

end LexAction

namespace Document

abbrev text (d : Document) (b : Branch) : String := writeBranch d.sourceOf b

/-- Kinds and payloads stay, and what has one branch keeps one. -/
structure Steady (d d' : Document) : Prop where
  kind_eq : ∀ x < d.size, d'.kind x = d.kind x
  payload_eq : ∀ x, (d'.node x).payload = (d.node x).payload
  single : ∀ x, (d.node x).branches.length = 1 → (d'.node x).branches.length = 1

theorem Steady.refl (d : Document) : d.Steady d :=
  ⟨fun _ _ => rfl, fun _ => rfl, fun _ h => h⟩

theorem Steady.trans (hle : d.size ≤ d'.size) (h : d.Steady d')
    (h' : d'.Steady d'') : d.Steady d'' where
  kind_eq x hx := by rw [h'.kind_eq x (lt_of_lt_of_le hx hle), h.kind_eq x hx]
  payload_eq x := by rw [h'.payload_eq, h.payload_eq]
  single x hx := h'.single x (h.single x hx)

theorem Steady.plain (h : d.Steady d') (hp : d.Plain) : d'.Plain := by
  intro x
  rw [Node.naming?, h.payload_eq]
  exact hp x

theorem Steady.create (d : Document) (kind : Kind) (place : Place) :
    d.Steady (d.create kind place).2 where
  kind_eq x hx := by rw [Document.kind, create_of_lt hx]; rfl
  payload_eq x := by
    by_cases hx : x = d.size
    · rw [hx, create_self, node_of_le (le_refl _)]
    · rw [node_create_ne hx]
  single x hx := by
    by_cases hx' : x = d.size
    · rw [hx', create_self]
      rfl
    · rw [node_create_ne hx']
      exact hx

theorem Steady.modify {f : Node → Node} (hk : (f (d.node x)).kind = (d.node x).kind)
    (hp : (f (d.node x)).payload = (d.node x).payload)
    (hs : (d.node x).branches.length = 1 → (f (d.node x)).branches.length = 1) :
    d.Steady (d.modify x f) where
  kind_eq y _ := modify_of_eq Node.kind hk
  payload_eq y := modify_of_eq Node.payload hp
  single y hy := by
    rcases node_modify_cases d x f y with heq | ⟨-, rfl, heq⟩ <;> rw [heq]
    · exact hy
    · exact hs hy

section Filling

variable {b : Branch}

theorem refs_setBranch {n : Node} (hp : n.payload = .none) (hb : n.branches = [[]])
    (b : Branch) : (n.setBranch 0 b).references = b.nodes ∧ n.references = [] := by
  rw [setBranch_zero, Node.references, Node.references, Node.body, Node.body, Node.body?,
    Node.body?, hp, hb]
  simp

theorem Steady.fill (hb : (d.node x).branches = [[]]) : d.Steady (d.setBranch x 0 b) :=
  .modify rfl rfl fun _ => by rw [setBranch_zero, hb]; rfl

theorem Grove.fill (h : d.Grove (x :: (b.nodes ++ L))) (hp : (d.node x).payload = .none)
    (hb : (d.node x).branches = [[]]) :
    (d.setBranch x 0 b).Grove (x :: L) ∧ d.Frame (d.setBranch x 0 b) (b.nodes ++ L) := by
  obtain ⟨hnew, hold⟩ := refs_setBranch hp hb b
  exact (h.takeIn (by rw [hnew, hold]; rfl)).imp_right And.left

theorem Grove.sourceOf_fill (h : d.Grove (x :: (b.nodes ++ L))) (hplain : d.Plain)
    (hp : (d.node x).payload = .none) (hb : (d.node x).branches = [[]]) :
    (d.setBranch x 0 b).sourceOf x = (d.kind x).opener ++ d.text b ++ (d.kind x).closer := by
  have hlt : x < d.size := h.lt_head
  obtain ⟨hgrove, hframe⟩ := h.fill hp hb
  have hsteady : d.Steady (d.setBranch x 0 b) := .fill hb
  have hnode : (d.setBranch x 0 b).node x = { d.node x with branches := [b] } := by
    rw [setBranch, modify_self hlt, setBranch_zero, hb]
    rfl
  have htext : (d.setBranch x 0 b).text b = d.text b :=
    branch_congr fun y hy => hframe.sourceOf_eq h hplain (mem_append_left _ hy)
      (h.lt_of_mem (mem_cons_of_mem _ (mem_append_left _ hy))) .refl
  rw [hgrove.sourceOf_eq (hsteady.plain hplain) hgrove.lt_head,
    write_of_none (by rw [hnode]; exact hp), hsteady.kind_eq x hlt, writeBranches, branches,
    hnode, ← htext]
  simp only [map_cons, map_nil, join_cons, join_nil, append_empty]
  rfl

end Filling

end Document

namespace Run

variable {r r' r'' : Run σ} {L' : List NodeId} {s s' : String}
  {id : NodeId}

def pile (r : Run σ) : Pile :=
  { opened := r.opened.map fun t => (t.node, t.content), out := r.out }

def openNodes (r : Run σ) : List NodeId := r.opened.map (·.node)

def loose (r : Run σ) : List NodeId := r.pile.nodes

/-- A run holds nodes of the document it works on, and others hold those in `L`. -/
structure Held (d : Document) (r : Run σ) (L : List NodeId) : Prop where
  grove : d.Grove (r.loose ++ L)
  /-- The nodes of open tokens are empty. -/
  fresh : ∀ x ∈ r.openNodes, (d.node x).payload = .none ∧ (d.node x).branches = [[]]

/-- A run has gone on and has left alone what others hold. -/
structure Goes (d d' : Document) (r' : Run σ) (L : List NodeId) : Prop where
  held : r'.Held d' L
  frame : d.Frame d' L
  steady : d.Steady d'

theorem Goes.trans (h : Goes d d' r' L) (h' : Goes d' d'' r'' L) : Goes d d'' r'' L where
  held := h'.held
  frame := h.frame.trans h'.frame
  steady := h.steady.trans h.frame.size_le h'.steady

theorem Held.sublist (h : r.Held d L) (hs : L'.Sublist L) : r.Held d L' :=
  ⟨h.grove.sublist (hs.append_left _), h.fresh⟩

theorem Goes.sublist (h : Goes d d' r' L) (hs : L'.Sublist L) : Goes d d' r' L' :=
  ⟨h.held.sublist hs, h.frame.mono hs.subset, h.steady⟩

theorem pile_append (r : Run σ) (f : Fragment) : (r.append f).pile = r.pile.add f := by
  rw [append]
  split
  case h_1 token opened h => simp [pile, Pile.add, h]
  case h_2 h => simp [pile, Pile.add, h]

theorem openNodes_eq (r : Run σ) : r.openNodes = r.pile.opened.map (·.1) := by
  simp [openNodes, pile]

theorem openNodes_append (r : Run σ) (f : Fragment) : (r.append f).openNodes = r.openNodes := by
  rw [openNodes_eq, openNodes_eq, pile_append, Pile.opened_add]

theorem mem_loose_of_open (h : x ∈ r.openNodes) : x ∈ r.loose :=
  Pile.mem_nodes_of_opened (openNodes_eq r ▸ h)

section

variable (h : r.Held d L)
include h

theorem Held.lt_size (hx : x ∈ r.loose) : x < d.size :=
  h.grove.lt_of_mem (mem_append_left _ hx)

theorem Held.of_pile (hp : r'.pile = r.pile) : r'.Held d L := by
  refine ⟨?_, ?_⟩
  · rw [loose, hp]
    exact h.grove
  · rw [openNodes_eq, hp, ← openNodes_eq]
    exact h.fresh

theorem Held.goes : Goes d d r L := ⟨h, .refl _ _, .refl _⟩

theorem Held.goes_of_pile (hp : r'.pile = r.pile) : Goes d d r' L :=
  (h.of_pile hp).goes

theorem Held.of_frame (hf : d.Frame d' r.loose) (hg : d'.Grove (r.loose ++ L')) : r.Held d' L' := by
  refine ⟨hg, fun x hx => ?_⟩
  rw [hf.node_eq x (mem_loose_of_open hx) x .refl]
  exact h.fresh x hx

theorem Held.append_text (s : String) : (r.append (.text s)).Held d L := by
  refine ⟨?_, by rw [openNodes_append]; exact h.fresh⟩
  rw [loose, pile_append, Pile.nodes_add_text]
  exact h.grove

end

theorem Held.append_node (h : r.Held d (id :: L)) : (r.append (.node id)).Held d L := by
  refine ⟨h.grove.perm ?_, by rw [openNodes_append]; exact h.fresh⟩
  rw [loose, loose, pile_append]
  exact perm_middle.trans ((r.pile.nodes_add_node id).symm.append_right L)

theorem Held.frame_create (h : r.Held d L) (kind : Kind) (place : Place) :
    d.Frame (d.create kind place).2 (r.loose ++ L) :=
  .create (fun _ hy => h.grove.lt_of_mem hy) h.grove kind place

theorem Held.start (hr : r.Held d L) (h : r.start kind d = .ok r' d') : Goes d d' r' L := by
  obtain ⟨rfl, rfl⟩ := start_eq_ok h
  refine ⟨⟨hr.grove.create kind r.place, fun x hx => ?_⟩,
    (hr.frame_create kind r.place).mono (subset_append_right _ _), .create d kind r.place⟩
  rcases mem_cons.mp hx with rfl | hx
  · rw [Document.create_self]
    exact ⟨rfl, rfl⟩
  · rw [Document.create_of_lt (hr.lt_size (mem_loose_of_open hx))]
    exact hr.fresh x hx

/-- What a run holds whose innermost token is about to be closed. -/
structure Closing (d : Document) (r : Run σ) (t : OpenToken) (ts : List OpenToken)
    (L : List NodeId) : Prop where
  payload_eq : (d.node t.node).payload = .none
  branches_eq : (d.node t.node).branches = [[]]
  /-- The token and what it holds are in the way of nothing. -/
  grove : d.Grove (t.node :: (Branch.nodes t.content.reverse ++ ({ r with opened := ts }.loose ++ L)))
  rest : { r with opened := ts }.Held d L

theorem Held.closing {t : OpenToken} {ts : List OpenToken} (hr : r.Held d L)
    (ho : r.opened = t :: ts) : Closing d r t ts L := by
  have hloose : r.loose = t.node :: (t.content.nodes ++ { r with opened := ts }.loose) := by
    simp [loose, pile, Pile.nodes, ho]
  have hfresh := hr.fresh
  rw [show r.openNodes = t.node :: { r with opened := ts }.openNodes by simp [openNodes, ho],
    forall_mem_cons] at hfresh
  have hgrove : d.Grove
      (t.node :: (Branch.nodes t.content.reverse ++ ({ r with opened := ts }.loose ++ L))) := by
    refine hr.grove.perm ?_
    rw [hloose, List.cons_append, List.append_assoc, Branch.nodes_reverse]
    exact ((List.reverse_perm _).symm.append_right _).cons _
  refine ⟨hfresh.1.1, hfresh.1.2, hgrove, hgrove.sublist ?_, hfresh.2⟩
  exact (sublist_append_right _ _).trans (sublist_cons_self _ _)

theorem Held.stop (hr : r.Held d L) (h : r.stop d = .ok r' d') : Goes d d' r' L := by
  obtain ⟨t, ts, ho, rfl, rfl⟩ := stop_eq_ok h
  have hc := hr.closing ho
  obtain ⟨hgrove, hframe⟩ := hc.grove.fill hc.payload_eq hc.branches_eq
  have hrest := hframe.mono (subset_append_right _ _)
  refine ⟨Held.append_node ?_, hrest.mono (subset_append_right _ _), .fill hc.branches_eq⟩
  exact hc.rest.of_frame (hrest.mono (List.subset_append_left _ _))
    (hgrove.perm perm_middle.symm)

/-- What is written for all that a run has built: a token that is open has been opened. -/
def built (d : Document) (r : Run σ) : String :=
  r.pile.text (fun x => (d.kind x).opener) d.sourceOf

def shape (d : Document) (r : Run σ) : Stacks σ :=
  { states := r.states, owed := r.openNodes.map fun x => (d.kind x).closer }

structure Sound (d : Document) (r : Run σ) (L : List NodeId) : Prop extends Held d r L where
  plain : d.Plain

structure Moves (d : Document) (r : Run σ) (d' : Document) (r' : Run σ) (L : List NodeId)
    (s : String) : Prop extends Goes d d' r' L where
  plain : d'.Plain
  built_eq : r'.built d' = r.built d ++ s

theorem Moves.sound (h : Moves d r d' r' L s) : r'.Sound d' L := ⟨h.held, h.plain⟩

theorem Goes.moves (h : Goes d d' r' L) (hp : d.Plain) (hb : r'.built d' = r.built d ++ s) :
    Moves d r d' r' L s :=
  ⟨h, h.steady.plain hp, hb⟩

theorem Moves.trans (h : Moves d r d' r' L s) (h' : Moves d' r' d'' r'' L s') :
    Moves d r d'' r'' L (s ++ s') :=
  ⟨h.toGoes.trans h'.toGoes, h'.plain, by rw [h'.built_eq, h.built_eq, String.append_assoc]⟩

theorem Sound.sublist (h : r.Sound d L) (hs : L'.Sublist L) : r.Sound d L' :=
  ⟨h.toHeld.sublist hs, h.plain⟩

theorem Moves.sublist (h : Moves d r d' r' L s) (hs : L'.Sublist L) : Moves d r d' r' L' s :=
  ⟨h.toGoes.sublist hs, h.plain, h.built_eq⟩

theorem Sound.moves_of_pile (h : r.Sound d L) (hp : r'.pile = r.pile) : Moves d r d r' L "" := by
  refine (h.toHeld.goes_of_pile hp).moves h.plain ?_
  rw [built, hp, append_empty]
  rfl

theorem shape_append (d : Document) (r : Run σ) (f : Fragment) : (r.append f).shape d = r.shape d := by
  have hstates : (r.append f).states = r.states := by
    rw [append]
    split <;> rfl
  rw [shape, shape, openNodes_append, hstates]

theorem Sound.append_text (h : r.Sound d L) (s : String) : Moves d r d (r.append (.text s)) L s :=
  (h.toHeld.append_text s).goes.moves h.plain (by simp [built, pile_append, Pile.text_add])

theorem Sound.append_node (h : r.Sound d (id :: L)) :
    Moves d r d (r.append (.node id)) L (d.sourceOf id) :=
  h.toHeld.append_node.goes.moves h.plain (by simp [built, pile_append, Pile.text_add])

theorem Sound.built_eq (h : r.Sound d L) (hf : d.Frame d' r.loose) (hs : d.Steady d') :
    r.built d' = r.built d := by
  refine Pile.text_congr (fun x hx => ?_) fun x hx =>
    hf.sourceOf_eq h.grove h.plain hx (h.lt_size hx) .refl
  rw [hs.kind_eq x (h.lt_size (Pile.mem_nodes_of_opened hx))]

theorem Held.shape_eq (h : r.Held d L) (hs : d.Steady d') : r.shape d' = r.shape d := by
  rw [shape, shape, map_congr_left fun x hx => by
    rw [hs.kind_eq x (h.lt_size (mem_loose_of_open hx))]]

theorem Sound.of_frame (h : r.Sound d L) (hf : d.Frame d' r.loose) (hp : d'.Plain)
    (hg : d'.Grove (r.loose ++ L')) : r.Sound d' L' :=
  ⟨h.toHeld.of_frame hf hg, hp⟩

theorem Sound.start (hr : r.Sound d L) (h : r.start kind d = .ok r' d') :
    Moves d r d' r' L kind.opener ∧
      r'.shape d' = { r.shape d with owed := kind.closer :: (r.shape d).owed } := by
  have hgoes := hr.toHeld.start h
  obtain ⟨rfl, rfl⟩ := start_eq_ok h
  have hkind : (d.create kind r.place).2.kind d.size = kind := by
    rw [Document.kind, Document.create_self]
  refine ⟨hgoes.moves hr.plain ?_, ?_⟩
  · have hframe := (hr.frame_create kind r.place).mono (List.subset_append_left _ _)
    rw [← hr.built_eq hframe hgoes.steady]
    simp [built, pile, Pile.text, Pile.openedText, hkind, String.append_assoc]
  · rw [← hr.shape_eq hgoes.steady]
    simp [shape, openNodes, hkind]

theorem Sound.stop (hr : r.Sound d L) (h : r.stop d = .ok r' d') : ∃ closer owed,
    (r.shape d).owed = closer :: owed ∧ Moves d r d' r' L closer ∧
      r'.shape d' = { r.shape d with owed } := by
  have hgoes := hr.toHeld.stop h
  obtain ⟨t, ts, ho, rfl, rfl⟩ := stop_eq_ok h
  have hc := hr.closing ho
  set r1 : Run σ := { r with opened := ts } with hr1
  have hrest : r1.Sound d L := ⟨hc.rest, hr.plain⟩
  have hframe := ((hc.grove.fill hc.payload_eq hc.branches_eq).2.mono
    (subset_append_right _ _)).mono (List.subset_append_left r1.loose L)
  refine ⟨(d.kind t.node).closer, r1.openNodes.map fun x => (d.kind x).closer, ?_, ?_, ?_⟩
  · simp [shape, openNodes, ho, hr1]
  · refine hgoes.moves hr.plain ?_
    have hbuilt : (r1.append (.node t.node)).built (d.setBranch t.node 0 t.content.reverse) =
        r1.built (d.setBranch t.node 0 t.content.reverse) ++
          (d.setBranch t.node 0 t.content.reverse).sourceOf t.node := by
      simp [built, pile_append, Pile.text_add]
    rw [hbuilt, hc.grove.sourceOf_fill hr.plain hc.payload_eq hc.branches_eq,
      hrest.built_eq hframe hgoes.steady]
    simp [built, pile, ho, hr1, Pile.text, Pile.openedText, String.append_assoc]
  · rw [shape_append, hrest.shape_eq hgoes.steady]
    rfl

section Actions

variable {m : List Char} {p p' : Bool} {a : LexAction σ} {as : List (LexAction σ)}

/-- A property of the document and of what a run holds that actions keep. -/
structure Kept (P : Document → Run σ → Prop) : Prop where
  of_pile : ∀ {d : Document} {r r' : Run σ}, P d r → r'.pile = r.pile → P d r'
  append_text : ∀ {d : Document} {r : Run σ}, P d r → ∀ s, P d (r.append (.text s))
  start : ∀ {d d' : Document} {r r' : Run σ} {kind : Kind}, P d r → r.start kind d = .ok r' d' →
    P d' r'
  stop : ∀ {d d' : Document} {r r' : Run σ}, P d r → r.stop d = .ok r' d' → P d' r'

namespace Kept

variable {P : Document → Run σ → Prop}

theorem act (hP : Kept P) (hr : P d r) (h : r.act m p a d = .ok (r', p') d') : P d' r' := by
  cases acts h with
  | push => exact hP.of_pile hr rfl
  | pop => exact hP.of_pile hr rfl
  | record => exact hP.append_text hr _
  | replace => exact hP.append_text hr _
  | shift => cases p <;> exact hP.of_pile hr rfl
  | start hs => exact hP.start hr hs
  | stop hs => exact hP.stop hr hs

theorem perform (hP : Kept P) (hr : P d r) (h : Run.perform m as p r d = .ok r' d') : P d' r' := by
  induction as generalizing r d p with
  | nil => cases h; exact hr
  | cons a as ih =>
    obtain ⟨⟨r1, p1⟩, d1, ha, h⟩ := bind_eq_ok.mp h
    exact ih (hP.act hr ha) h

variable [DecidableEq σ] {g : Grammar σ}

theorem step (hP : Kept P) (hr : P d r) (h : r.step g d = .ok r' d') : P d' r' := by
  obtain ⟨_, _, -, h⟩ := step_eq_ok h
  exact hP.perform hr h

theorem read (hP : Kept P) (hr : P d r) (h : r.read g s d = .ok r' d') : P d' r' :=
  (scan_induction (fun hr h => hP.step hr h) (hP.of_pile hr rfl : P d (r.load s)) h).1

end Kept

theorem goes_kept (d : Document) (L : List NodeId) : Kept fun d' (r' : Run σ) => Goes d d' r' L where
  of_pile h hp := ⟨h.held.of_pile hp, h.frame, h.steady⟩
  append_text h s := ⟨h.held.append_text s, h.frame, h.steady⟩
  start h hs := h.trans (h.held.start hs)
  stop h hs := h.trans (h.held.stop hs)

theorem Held.act (hr : r.Held d L) (h : r.act m p a d = .ok (r', p') d') : Goes d d' r' L :=
  (goes_kept d L).act hr.goes h

theorem Sound.act (hr : r.Sound d L) (h : r.act m p a d = .ok (r', p') d') : ∃ e,
    a.emit (String.ofList m) (r.shape d) = some (e, r'.shape d') ∧ Moves d r d' r' L e := by
  cases acts h with
  | push => exact ⟨_, rfl, hr.moves_of_pile rfl⟩
  | pop hs => exact ⟨"", by simp [LexAction.emit, shape, openNodes, hs], hr.moves_of_pile rfl⟩
  | record => exact ⟨_, by simp [LexAction.emit, shape_append], hr.append_text _⟩
  | replace => exact ⟨_, by simp [LexAction.emit, shape_append], hr.append_text _⟩
  | shift => cases p <;> exact ⟨_, rfl, hr.moves_of_pile rfl⟩
  | start hs =>
    obtain ⟨hm, hshape⟩ := hr.start hs
    exact ⟨_, by rw [LexAction.emit, hshape], hm⟩
  | stop hs =>
    obtain ⟨closer, owed, ho, hm, hshape⟩ := hr.stop hs
    exact ⟨closer, by simp only [LexAction.emit, ho, hshape], hm⟩

theorem Sound.perform (hr : r.Sound d L) (h : Run.perform m as p r d = .ok r' d') : ∃ e,
    LexAction.emitAll (String.ofList m) as (r.shape d) = some (e, r'.shape d') ∧
      Moves d r d' r' L e := by
  induction as generalizing r d p with
  | nil =>
    cases h
    exact ⟨"", rfl, hr.moves_of_pile rfl⟩
  | cons a as ih =>
    obtain ⟨⟨r1, p1⟩, d1, ha, h⟩ := bind_eq_ok.mp h
    obtain ⟨e1, he1, hm1⟩ := hr.act ha
    obtain ⟨e2, he2, hm2⟩ := ih hm1.sound h
    exact ⟨e1 ++ e2, by simp only [LexAction.emitAll, he1, he2], hm1.trans hm2⟩

end Actions

end Run

end Stencil
