import Stencil.Proofs.Lexing.Timing

/-!
# Splitting keeps to a timetable

A run over a branch meets nodes. It takes on the line and column of a node that it dissolves, but not
its file: this stays that of the node whose branch is read. `Document.Meets` says which nodes are met,
behind which text, and by runs of which file. If the text that is met would keep to the timetable with
the place that the run has there (`Document.Due`), then **everything that splitting makes of the
document keeps to the timetable, and so do its errors** (`Grammar.tokenize_timed`).
-/

namespace Stencil

open Document List String

variable {d d' : Document} {L : List NodeId} {x : NodeId} {b : Branch} {enter through : List Kind}
  {i n : Nat} {place : Place} {before : String} {σ : Type}

def Place.inFile (p : Place) (path : String) : Place := { p with path }

def Branch.Wordless (b : Branch) : Prop := ∀ s, Fragment.text s ∉ b

namespace Node

/-- There is no text between the nodes of a node's branches. -/
def Wordless (n : Node) : Prop := ∀ b ∈ n.branches, b.Wordless

/-- A node holds a single piece of text and no node, or no text between its nodes. -/
def Tidy (n : Node) : Prop := (∃ s, n.branches = [[.text s]]) ∨ n.Wordless

end Node

theorem Branch.Wordless.tail {f : Fragment} (h : Branch.Wordless (f :: b)) : b.Wordless :=
  fun s hs => h s (mem_cons_of_mem _ hs)

namespace Document

variable {path path' pre : String}
  {c : NodeId} {t : Timetable}

theorem Wordless.branch (h : (d.node x).Wordless) (i : Nat) : (d.branch x i).Wordless := by
  by_cases hi : i < (d.branches x).length
  · exact h _ (branch_mem hi)
  · have hemp : d.branch x i = [] := getD_eq_default _ _ (not_lt.mp hi)
    rw [hemp]
    exact fun s hs => by cases hs

/-! ### What a run meets -/

/-- A run over the branch, for a file `path`, comes to the node `x`, or a run inside of it that is for
the file `path'` does. The text in front of the node is `pre`. -/
inductive Meets (d : Document) (through enter : List Kind) :
    (path : String) → Branch → (path' pre : String) → NodeId → Prop where
  | node {path : String} {x : NodeId} {b : Branch} :
      Meets d through enter path (.node x :: b) path "" x
  /-- The run goes on inside of a node that it dissolves. -/
  | through {path path' pre : String} {p x : NodeId} {b : Branch} {i : Nat} :
      d.kind p ∈ through → Meets d through enter path (d.branch p i) path' pre x →
      Meets d through enter path (.node p :: b) path' (d.lead p i ++ pre) x
  /-- A run of its own goes over the branch of a node that is entered. -/
  | enter {path path' pre : String} {p x : NodeId} {b : Branch} {i : Nat} :
      d.kind p ∉ through → d.kind p ∈ enter →
      Meets d through enter (d.place p).path (d.branch p i) path' pre x →
      Meets d through enter path (.node p :: b) path' (d.lead p i ++ pre) x
  | skipNode {path path' pre : String} {p x : NodeId} {b : Branch} :
      Meets d through enter path b path' pre x →
      Meets d through enter path (.node p :: b) path' (d.sourceOf p ++ pre) x
  | skipText {path path' pre s : String} {x : NodeId} {b : Branch} :
      Meets d through enter path b path' pre x →
      Meets d through enter path (.text s :: b) path' (s ++ pre) x

theorem Meets.stands (h : d.Meets through enter path b path' pre x) : d.Stands b pre x := by
  induction h with
  | node => exact .node
  | through _ _ ih => exact .inside ih
  | enter _ _ _ ih => exact .inside ih
  | skipNode _ ih => exact .skipNode ih
  | skipText _ ih => exact .skipText ih

theorem Meets.of_agrees (ha : ∀ c ∈ b.nodes, d.Agrees d' c)
    (h : d'.Meets through enter path b path' pre x) :
    d.Meets through enter path b path' pre x ∧ d'.node x = d.node x := by
  induction h with
  | node => exact ⟨.node, (ha _ mem_cons_self _ .refl).1⟩
  | @through path path' pre p x b i hk _ ih =>
    have hp : d.Agrees d' p := ha p mem_cons_self
    rw [hp.branch_eq] at ih
    obtain ⟨hmeets, hnode⟩ := ih fun c hc =>
      hp.child (d.kids_sub p (mem_kids_of_branch hc))
    rw [kind, (hp p .refl).1] at hk
    rw [hp.lead_eq]
    exact ⟨.through hk hmeets, hnode⟩
  | @enter path path' pre p x b i hk hk' _ ih =>
    have hp : d.Agrees d' p := ha p mem_cons_self
    rw [hp.branch_eq, place, (hp p .refl).1] at ih
    obtain ⟨hmeets, hnode⟩ := ih fun c hc =>
      hp.child (d.kids_sub p (mem_kids_of_branch hc))
    rw [kind, (hp p .refl).1] at hk hk'
    rw [hp.lead_eq]
    exact ⟨.enter hk hk' hmeets, hnode⟩
  | @skipNode path path' pre p x b _ ih =>
    obtain ⟨hmeets, hnode⟩ := ih fun c hc => ha c (mem_cons_of_mem _ hc)
    rw [(ha p mem_cons_self p .refl).2]
    exact ⟨.skipNode hmeets, hnode⟩
  | skipText _ ih =>
    obtain ⟨hmeets, hnode⟩ := ih ha
    exact ⟨.skipText hmeets, hnode⟩

/-- What a run over the branch keeps to, for a file `path` and with the text `before` in front. -/
structure Due (t : Timetable) (through enter : List Kind) (d : Document) (path before : String)
    (b : Branch) : Prop where
  timed : d.Timed t.arrives before b
  /-- The text that is read stands alone in a node that is dissolved. -/
  tidy : ∀ c ∈ b.nodes, ∀ y, Reaches d.refs c y →
    (d.kind y ∈ through → (d.node y).Tidy) ∧ (d.kind y ∈ enter → (d.node y).Wordless)
  /-- Errors may point at the nodes that are dissolved. -/
  fails : ∀ {path' pre : String} {c : NodeId}, d.Meets through enter path b path' pre c →
    d.kind c ∈ through → t.fails ((d.place c).inFile path')
  /-- Tokens may start everywhere in the text. -/
  ready : ∀ {path' pre s : String} {c : NodeId} {a z : List Char},
    d.Meets through enter path b path' pre c → d.kind c ∈ through → d.branches c = [[.text s]] →
    s.toList = a ++ z →
    t.Ready (before ++ pre ++ String.ofList a) (((d.place c).inFile path').advance a)

namespace Due

/-- A part of what a run goes over, behind some text of the whole. -/
theorem part {b' : Branch} {lead : String} (h : Due t through enter d path before b)
    (htimed : d.Timed t.arrives (before ++ lead) b')
    (htidy : ∀ c ∈ b'.nodes, ∀ y, Reaches d.refs c y →
      (d.kind y ∈ through → (d.node y).Tidy) ∧ (d.kind y ∈ enter → (d.node y).Wordless))
    (hm : ∀ {path'' pre x}, d.Meets through enter path' b' path'' pre x →
      d.Meets through enter path b path'' (lead ++ pre) x) :
    Due t through enter d path' (before ++ lead) b' where
  timed := htimed
  tidy := htidy
  fails hmeets := h.fails (hm hmeets)
  ready hmeets hk hb hs := by
    have := h.ready (hm hmeets) hk hb hs
    rwa [← String.append_assoc] at this

theorem head (h : Due t through enter d path before (.node c :: b)) :
    Due t through enter d path before [.node c] := by
  have hpart : Due t through enter d path (before ++ "") [.node c] := h.part
    (by simpa using (timed_append (b := [.node c])).mp h.timed |>.1)
    (fun x hx => h.tidy x (mem_singleton.mp hx ▸ mem_cons_self)) fun hm => by
      rw [empty_append]
      cases hm with
      | node => exact .node
      | through hk hm => exact .through hk hm
      | enter hk hk' hm => exact .enter hk hk' hm
      | skipNode hm => cases hm
  rwa [append_empty] at hpart

theorem tail (h : Due t through enter d path before (.node c :: b)) :
    Due t through enter d path (before ++ d.sourceOf c) b :=
  h.part (timed_cons_node.mp h.timed).2 (fun x hx => h.tidy x (mem_cons_of_mem _ hx)) .skipNode

section

variable (h : Due t through enter d path before [.node c])
include h

theorem tidy_branch (i : Nat) :
    ∀ x ∈ (d.branch c i).nodes, ∀ y, Reaches d.refs x y →
      (d.kind y ∈ through → (d.node y).Tidy) ∧ (d.kind y ∈ enter → (d.node y).Wordless) :=
  fun _ hx y hy => h.tidy c mem_cons_self y
    (.head (d.kids_sub c (mem_kids_of_branch hx)) hy)

theorem dissolved (hc : d.kind c ∈ through)
    (i : Nat) : Due t through enter d path (before ++ d.lead c i) (d.branch c i) :=
  h.part ((timed_cons_node.mp h.timed).1.2 i) (h.tidy_branch i) (.through hc)

theorem entered (hc : d.kind c ∉ through) (hc' : d.kind c ∈ enter) (i : Nat) :
    Due t through enter d (d.place c).path (before ++ d.lead c i) (d.branch c i) :=
  h.part ((timed_cons_node.mp h.timed).1.2 i) (h.tidy_branch i) (.enter hc hc')

end

theorem of_agrees (h : Due t through enter d path before b) (ha : ∀ c ∈ b.nodes, d.Agrees d' c) :
    Due t through enter d' path before b where
  timed := h.timed.of_agrees ha
  tidy c hc y hy := by
    have hr : Reaches d.refs c y := (Reaches.congr_iff fun x hx => by
      rw [refs, (ha c hc x hx).1]
      rfl).mp hy
    rw [kind, (ha c hc y hr).1]
    exact h.tidy c hc y hr
  fails hm hk := by
    obtain ⟨hm, hnode⟩ := hm.of_agrees ha
    rw [kind, hnode] at hk
    rw [place, hnode]
    exact h.fails hm hk
  ready hm hk hb hs := by
    obtain ⟨hm, hnode⟩ := hm.of_agrees ha
    rw [kind, hnode] at hk
    rw [branches, hnode] at hb
    rw [place, hnode]
    exact h.ready hm hk hb hs

end Due

end Document

namespace Run

open Document (Due)

variable [DecidableEq σ] {g : Grammar σ} {fits : Stacks σ → Prop}
  {r r' : Run σ} {t : Timetable} {visit : NodeId → Run σ → Edit (Run σ)}

def Settled (t : Timetable) (r : Run σ) : Prop := r.states = [] ∨ t.fails r.place

/-- A run has gone on in the same file and is on time. -/
structure Arrives (t : Timetable) (before : String) (r r' : Run σ) (d' : Document) : Prop where
  onTime : r'.OnTime t before d'
  settled : r'.Settled t
  path_eq : r'.place.path = r.place.path

def KeepsTime (t : Timetable) (fits : Stacks σ → Prop) (through enter : List Kind) (levels : Nat)
    (visit : NodeId → Run σ → Edit (Run σ)) : Prop :=
  ∀ {d : Document} {r : Run σ} {id : NodeId} {L : List NodeId} {before : String},
    r.Sound d (id :: L) → fits (r.shape d) → Bodiless through d → Shallow d.refs levels id →
    t.since ≤ d.size → r.OnTime t before d → r.Settled t →
    Due t through enter d r.place.path (before ++ r.built d) [.node id] →
    Yields (visit id r) d (fun r' d' => Arrives t before r r' d') fun e _ => t.Allows e

omit [DecidableEq σ] in
theorem Moves.agrees {s : String} (h : Moves d r d' r' L s) (hr : r.Sound d L)
    (hx : x ∈ L) : d.Agrees d' x :=
  h.frame.agrees hr.grove hr.plain hx (hr.grove.lt_of_mem (mem_append_right _ hx))

/-! ### Branches -/

theorem feed_timed (hvisit : Faithful fits through n visit)
    (hv : KeepsTime t fits through enter n visit) (hb : b.Wordless) (hr : r.Sound d (b.nodes ++ L))
    (hf : fits (r.shape d)) (hbodiless : Bodiless through d)
    (hs : ∀ c ∈ b.nodes, Shallow d.refs n c) (hn : t.since ≤ d.size) (h : r.OnTime t before d)
    (hset : r.Settled t) (hdue : Due t through enter d r.place.path (before ++ r.built d) b) :
    Yields (feed g visit b "" r) d (fun r' d' => Arrives t before r r' d') fun e _ => t.Allows e := by
  induction b generalizing r d with
  | nil =>
    rw [feed, read_empty]
    exact .pure ⟨h.of_pile rfl, hset, rfl⟩
  | cons f b ih =>
    cases f with
    | text s => exact absurd mem_cons_self (hb s)
    | node id =>
      rw [Branch.nodes_cons_node, cons_append] at hr
      rw [Branch.nodes_cons_node, List.forall_mem_cons] at hs
      rw [feed, read_empty, pure_bind]
      refine (hv (hr.load "") hf hbodiless hs.1 hn (h.of_pile rfl) hset hdue.head).self.bind
        fun r1 d1 h1 => ?_
      obtain ⟨hok, h1⟩ := h1
      have hm := hvisit (hr.load "") hf hbodiless hs.1 hok
      have hmem : ∀ c ∈ Branch.nodes b, c ∈ Branch.nodes b ++ L :=
        fun c hc => mem_append_left _ hc
      have hdue1 : Due t through enter d1 r.place.path (before ++ r.built d ++ d.sourceOf id) b :=
        hdue.tail.of_agrees fun c hc =>
          hm.agrees ((hr.load "").sublist (sublist_cons_self _ _)) (hmem c hc)
      have hbuilt : before ++ r1.built d1 = before ++ r.built d ++ d.sourceOf id := by
        rw [hm.built_eq, String.append_assoc]
        rfl
      have hpath : r1.place.path = r.place.path := h1.path_eq
      rw [← hbuilt, ← hpath] at hdue1
      refine (ih hb.tail hm.sound hm.fits_shape (hbodiless.of_steady hm.steady)
        (fun c hc => hm.shallow (hmem c hc) (hs.2 c hc)) (le_trans hn hm.frame.size_le)
        h1.onTime h1.settled hdue1).mono (fun r' d' h' => ⟨h'.onTime, h'.settled, ?_⟩) fun _ _ he => he
      rw [h'.path_eq, hpath]

theorem feed_all_timed (hg : g.Lossless fits) (hvisit : Faithful fits through n visit)
    (hv : KeepsTime t fits through enter n visit) {bs : List Branch}
    (hb : ∀ b ∈ bs, b.Wordless) (hr : r.Sound d (bs.flatMap Branch.nodes ++ L))
    (hf : fits (r.shape d)) (hbodiless : Bodiless through d)
    (hs : ∀ c ∈ bs.flatMap Branch.nodes, Shallow d.refs n c) (hn : t.since ≤ d.size)
    (h : r.OnTime t before d) (hset : r.Settled t)
    (hdue : ∀ i (hi : i < bs.length), Due t through enter d r.place.path
      (before ++ r.built d ++ String.join ((bs.map d.text).take i)) bs[i]) :
    Yields (bs.foldlM (fun r b => feed g visit b "" r) r) d
      (fun r' d' => Arrives t before r r' d') fun e _ => t.Allows e := by
  induction bs generalizing r d with
  | nil => exact .pure ⟨h, hset, rfl⟩
  | cons b bs ih =>
    rw [List.flatMap_cons, List.append_assoc] at hr
    rw [List.flatMap_cons, List.forall_mem_append] at hs
    rw [List.forall_mem_cons] at hb
    rw [foldlM_cons]
    have hdue0 := hdue 0 (Nat.succ_pos _)
    rw [take_zero, join_nil, append_empty] at hdue0
    refine (feed_timed (g := g) hvisit hv hb.1 hr hf hbodiless hs.1 hn h hset hdue0).self.bind
      fun r1 d1 h1 => ?_
    obtain ⟨hok, h1⟩ := h1
    have hm := feed_reads hg hvisit hr hf hbodiless hs.1 hok
    have hmem : ∀ c ∈ bs.flatMap Branch.nodes, c ∈ bs.flatMap Branch.nodes ++ L :=
      fun c hc => mem_append_left _ hc
    have hagrees : ∀ c ∈ bs.flatMap Branch.nodes, d.Agrees d1 c := fun c hc =>
      hm.agrees (hr.sublist (sublist_append_right _ _)) (hmem c hc)
    have htexts : bs.map d1.text = bs.map d.text := map_congr_left fun b hb =>
      branch_congr fun c hc =>
        (hagrees c (mem_flatMap.mpr ⟨b, hb, hc⟩) c .refl).2
    have hpath : r1.place.path = r.place.path := h1.path_eq
    refine (ih hb.2 hm.sound hm.fits_shape (hbodiless.of_steady hm.steady)
      (fun c hc => hm.shallow (hmem c hc) (hs.2 c hc)) (le_trans hn hm.frame.size_le)
      h1.onTime h1.settled fun i hi => ?_).mono
      (fun r' d' h' => ⟨h'.onTime, h'.settled, h'.path_eq.trans hpath⟩) fun _ _ he => he
    have hduei := hdue (i + 1) (Nat.succ_lt_succ hi)
    rw [map_cons, take_succ_cons, join_cons, getElem_cons_succ] at hduei
    rw [hpath, hm.built_eq, htexts]
    simp only [empty_append, String.append_assoc] at hduei ⊢
    exact hduei.of_agrees fun c hc =>
      hagrees c (mem_flatMap.mpr ⟨_, getElem_mem hi, hc⟩)

/-! ### A run of its own -/

/-- A run at a place can begin to read a branch: there is no text, or there is nothing but a text that
starts at the place. -/
def Begins (t : Timetable) (through enter : List Kind) (d : Document) (place : Place)
    (before : String) (b : Branch) : Prop :=
  (b.Wordless ∧ Due t through enter d place.path before b) ∨
    ∃ s, b = [.text s] ∧ ∀ a z, s.toList = a ++ z →
      t.Ready (before ++ String.ofList a) (place.advance a)

omit [DecidableEq σ] in
theorem Begins.of_agrees (h : Begins t through enter d place before b)
    (ha : ∀ c ∈ b.nodes, d.Agrees d' c) : Begins t through enter d' place before b :=
  h.imp_left fun h => ⟨h.1, h.2.of_agrees ha⟩

theorem feed_begins (hg : g.Lossless fits) (hpun : g.Punctual)
    (hvisit : Faithful fits through n visit) (hv : KeepsTime t fits through enter n visit)
    (hgrove : d.Grove (b.nodes ++ L)) (hp : d.Plain) (hbodiless : Bodiless through d)
    (hs : ∀ c ∈ b.nodes, Shallow d.refs n c) (hn : t.since ≤ d.size)
    (hbegins : Begins t through enter d place before b) :
    Yields (feed g visit b "" { place }) d
      (fun r' d' => r'.OnTime t before d' ∧ r'.Settled t) fun e _ => t.Allows e := by
  have hr : ({ place } : Run σ).Sound d (b.nodes ++ L) :=
    ⟨⟨hgrove, fun x hx => absurd hx not_mem_nil⟩, hp⟩
  have h : ({ place } : Run σ).OnTime t before d :=
    ⟨⟨timed_nil, trivial⟩, fun x hx => absurd hx not_mem_nil⟩
  have hbuilt : before ++ ({ place } : Run σ).built d = before := by
    simp [built, pile, Pile.text, Pile.openedText]
  rcases hbegins with ⟨hb, hdue⟩ | ⟨s, rfl, hready⟩
  · refine (feed_timed (g := g) hvisit hv hb hr hg.start hbodiless hs hn h (.inl rfl) ?_).mono
      (fun r' d' h' => ⟨h'.onTime, h'.settled⟩) fun _ _ he => he
    rw [hbuilt]
    exact hdue
  · rw [feed, feed, empty_append]
    refine (read_timed hg hpun hr hg.start h hn fun a z hs => ?_).mono
      (fun r' d' h' => ⟨h'.1, .inr h'.2.1⟩) fun _ _ he => he
    rw [hbuilt]
    exact hready a z hs

omit [DecidableEq σ] in
theorem finish_timed (h : r.OnTime t before d) (hset : r.Settled t) :
    Yields (r.finish g) d (fun b d' => d' = d ∧ d.Timed t.arrives before b) fun e _ => t.Allows e := by
  refine ⟨fun b d' hok => ?_, fun e d' he => ?_⟩
  · obtain ⟨hopened, -, rfl, rfl⟩ := finish_eq_ok.mp hok
    exact ⟨rfl, h.timed.1⟩
  · unfold finish at he
    cases ho : r.opened with
    | cons token tokens =>
      rw [ho] at he
      cases he
      -- the token is new and on time
      have htimed := h.timed.2
      rw [pile, ho] at htimed
      exact t.fails_of_arrives (h.recent _ (by simp [openNodes, ho])) htimed.2.1
    | nil =>
      rw [ho] at he
      cases hfind : r.states.find? (!g.mayEnd ·) with
      | none => simp only [hfind] at he; cases he
      | some state =>
        simp only [hfind] at he
        cases he
        rcases hset with hemp | hfails
        · rw [hemp] at hfind
          cases hfind
        · exact hfails

end Run

namespace Grammar

open Document (Due Timed Agrees)
open Run (Bodiless Faithful KeepsTime Begins Arrives)

variable [DecidableEq σ] {g : Grammar σ} {fits : Stacks σ → Prop} {t : Timetable}
  {visit : NodeId → Run σ → Edit (Run σ)} {id : NodeId}

/-- What holds while the branches of a node are split into tokens one after the other, before the
branch `i` is: the branches in front of it are on time, and the others are as they were. -/
structure Underway (t : Timetable) (before : String) (d : Document) (id : NodeId) (L : List NodeId)
    (i : Nat) (d1 : Document) : Prop extends Retold Manner.source d d1 id L where
  steady : d.Steady d1
  size_le : d.size ≤ d1.size
  length_eq : (d1.branches id).length = (d.branches id).length
  place_eq : d1.place id = d.place id
  lead_eq : ∀ j, d1.lead id j = d.lead id j
  done : ∀ j < i, d1.Timed t.arrives (before ++ d.lead id j) (d1.branch id j)
  branch_eq : ∀ j ≥ i, d1.branch id j = d.branch id j
  agrees : ∀ j ≥ i, ∀ c ∈ (d.branch id j).nodes, d.Agrees d1 c

theorem Underway.putBack {d1 d2 : Document}
    (h : Underway t before d id L i d1) (hi : i < (d1.branches id).length)
    (hr : Retells Manner.source (d1.setBranch id i []) d2 (d1.branch id i) b (id :: L))
    (hsteady : (d1.setBranch id i []).Steady d2) (hb : d2.Timed t.arrives (before ++ d.lead id i) b) :
    Underway t before d id L (i + 1) (d2.setBranch id i b) := by
  have hback := hr.putBack Manner.local_source Manner.textual_source h.grove h.plain hi
  have hlt1 : id < d1.size := h.grove.lt_head
  have hi2 : i < (d2.branches id).length := by
    rw [Document.branches, hr.frame.node_head, node_setBranch hlt1 hi, length_set]
    exact hi
  -- the other branches are as they were
  have hothers : ∀ j, j ≠ i → (d2.setBranch id i b).branch id j = d1.branch id j ∧
      ∀ c ∈ (d1.branch id j).nodes, d1.Agrees (d2.setBranch id i b) c := by
    intro j hj
    refine ⟨?_, fun c hc => ?_⟩
    · simp only [Document.branch, Node.branch, hback.node_eq, getD_eq_getElem?_getD,
        getElem?_set_ne (Ne.symm hj)]
      rfl
    · have hjlen : j < (d1.branches id).length := lt_of_mem_branch hc
      refine hback.frame_rest.agrees h.grove h.plain ?_
        (h.grove.lt_of_refs (refs_of_mem hc))
      refine refs_of_branch (b := d1.branch id j) ?_ hc
      rw [Document.branches, node_setBranch hlt1 hi, branch_getElem hjlen]
      exact mem_iff_getElem.mpr ⟨j, by simpa using hjlen, by simp [Ne.symm hj]⟩
  have hlead : ∀ j, (d2.setBranch id i b).lead id j = d1.lead id j := fun j =>
    Document.lead_eq (by rw [Document.kind, hback.node_eq]; rfl) (by rw [hback.node_eq])
      hback.texts_eq hback.body_eq j
  have hnew : (d2.setBranch id i b).branch id i = b := by
    rw [Document.branch, hback.node_eq, Node.branch, getD_eq_getElem _ _ (by simpa using hi)]
    simp
  refine ⟨h.toRetold.trans hback.toRetold,
    (h.steady.trans h.size_le (.setBranch hi)).trans ?_ (hsteady.trans hr.frame.size_le (.setBranch hi2)),
    ?_, ?_, ?_, fun j => (hlead j).trans (h.lead_eq j), fun j hj => ?_, fun j hj => ?_,
    fun j hj c hc => ?_⟩
  · rw [Document.setBranch, size_modify]
    exact h.size_le
  · exact le_trans h.size_le (hback.frame_rest.size_le)
  · rw [Document.branches, hback.node_eq, length_set]
    exact h.length_eq
  · rw [Document.place, hback.node_eq]
    exact h.place_eq
  · rcases Nat.lt_succ_iff_lt_or_eq.mp hj with hj | rfl
    · obtain ⟨hbranch, hagrees⟩ := hothers j (ne_of_lt hj)
      rw [hbranch]
      exact (h.done j hj).of_agrees hagrees
    · rw [hnew]
      obtain ⟨-, hframe⟩ := hr.grove.putBranch (i := j) (by
        rw [branch_getElem hi2]
        simp only [Document.branches, hr.frame.node_head, node_setBranch hlt1 hi, getElem_set_self])
      refine hb.of_agrees fun c hc => hframe.agrees hr.grove hr.plain (mem_append_left _ hc) ?_
      exact hr.grove.lt_of_mem (mem_append_left _ hc)
  · rw [(hothers j (by omega)).1]
    exact h.branch_eq j (by omega)
  · have hcj : c ∈ (d1.branch id j).nodes := by rw [h.branch_eq j (by omega)]; exact hc
    exact (h.agrees j (by omega) c hc).trans ((hothers j (by omega)).2 c hcj)

theorem tokenizeBranches_timed (hg : g.Lossless fits) (hpun : g.Punctual)
    (hvisit : Faithful fits through n visit) (hv : KeepsTime t fits through enter n visit)
    (h : d.Grove (id :: L)) (hp : d.Plain) (hb : Bodiless through d) (hs : Shallow d.refs (n + 1) id)
    (hn : t.since ≤ d.size) (hbegins : ∀ i < (d.branches id).length,
      Begins t through enter d (d.place id) (before ++ d.lead id i) (d.branch id i)) :
    Yields (g.tokenizeBranches visit id) d
      (fun _ d' => Underway t before d id L (d.branches id).length d') fun e _ => t.Allows e := by
  refine .bind_ok rfl ?_
  refine mapBranches_yields (P := Underway t before d id L) ?_ fun i hi d1 h1 => ?_
  · exact ⟨.refl _ h hp, .refl d, le_refl _, rfl, rfl, fun _ => rfl,
      fun j hj => absurd hj (Nat.not_lt_zero j), fun _ _ => rfl, fun _ _ _ _ _ _ => ⟨rfl, rfl⟩⟩
  · have hi1 : i < (d1.branches id).length := by rw [h1.length_eq]; exact hi
    obtain ⟨hg0, hf0⟩ := h1.grove.takeBranch i
    have hsteady0 : d1.Steady (d1.setBranch id i []) := .setBranch hi1
    have hplain0 : (d1.setBranch id i []).Plain := h1.plain.setBranch
    have hbodiless0 := (hb.of_steady h1.steady).of_steady hsteady0
    have hsize0 : t.since ≤ (d1.setBranch id i []).size := by
      rw [Document.setBranch, size_modify]
      exact le_trans hn h1.size_le
    -- the branch is as it was, also after it has been taken out
    have hagrees : ∀ c ∈ (d1.branch id i).nodes, d.Agrees (d1.setBranch id i []) c := by
      intro c hc
      have hci : c ∈ (d.branch id i).nodes := by
        rw [← h1.branch_eq i (le_refl i)]
        exact hc
      exact (h1.agrees i (le_refl i) c hci).trans (hf0.agrees h1.grove h1.plain (mem_append_left _ hc)
        (h1.grove.lt_of_refs (refs_of_mem hc)))
    have hdepth : ∀ c ∈ (d1.branch id i).nodes, Shallow (d1.setBranch id i []).refs n c := by
      intro c hc
      have hci : c ∈ d.refs id := by
        refine refs_of_mem (i := i) ?_
        rw [← h1.branch_eq i (le_refl i)]
        exact hc
      refine (hs c hci).of_subset fun x hx => ?_
      rw [Document.refs, (hagrees c hc x hx).1]
      exact List.Subset.refl _
    have hbegins0 : Begins t through enter (d1.setBranch id i []) (d.place id)
        (before ++ d.lead id i) (d1.branch id i) := by
      have := hbegins i hi
      rw [← h1.branch_eq i (le_refl i)] at this
      exact this.of_agrees hagrees
    refine (Run.feed_begins (g := g) hg hpun hvisit hv hg0 hplain0 hbodiless0 hdepth hsize0
      hbegins0).self.bind ?_
    rintro r d2 ⟨hfeed, honTime, hset⟩
    refine (Run.finish_timed (g := g) honTime hset).self.mono ?_ fun _ _ he => he
    rintro b d3 ⟨hfin, rfl, htimed⟩
    obtain ⟨hretells, hsteady⟩ :=
      Run.feed_retells hg hvisit hg0 hplain0 hbodiless0 hdepth hfeed hfin
    exact h1.putBack hi1 hretells hsteady htimed

/-! ### Nodes that are met -/

section

variable (hg : g.Lossless fits) (hpun : g.Punctual) (hdel : ∀ k ∈ through, k.delimiters = none)
include hg hpun hdel

theorem visit_dissolved (hvisit : Faithful fits through n visit)
    (hv : KeepsTime t fits through enter n visit) {r : Run σ} (hr : r.Sound d (id :: L))
    (hf : fits (r.shape d)) (hb : Bodiless through d) (hs : Shallow d.refs (n + 1) id)
    (hn : t.since ≤ d.size) (h : r.OnTime t before d)
    (hdue : Due t through enter d r.place.path (before ++ r.built d) [.node id])
    (hkind : d.kind id ∈ through) :
    Yields ((d.branches id).foldlM (fun r b => Run.feed g visit b "" r) (r.seek (d.place id)))
      (d.clear id) (fun r' d' => Arrives t before r r' d') fun e _ => t.Allows e := by
  have hseek : (r.seek (d.place id)).Sound d (id :: L) := ⟨hr.toHeld.of_pile rfl, hr.plain⟩
  have hclear := hseek.clear
  have hbuilt : (r.seek (d.place id)).built (d.clear id) = r.built d := hclear.built_eq
  have hshape : fits ((r.seek (d.place id)).shape (d.clear id)) := by
    rw [hseek.shape_eq hclear.steady]
    exact hf
  have hn1 : t.since ≤ (d.clear id).size := le_trans hn hclear.frame.size_le
  have h1 : (r.seek (d.place id)).OnTime t before (d.clear id) :=
    (h.of_frame hr (hclear.frame.mono fun x hx => mem_append_right _ (mem_append_left _ hx))).of_pile rfl
  have hplace : (r.seek (d.place id)).place = (d.place id).inFile r.place.path := rfl
  rcases (hdue.tidy id mem_cons_self id .refl).1 hkind with ⟨s, htext⟩ | hwordless
  · -- its text is read
    have hbranches : d.branches id = [[.text s]] := htext
    simp only [hbranches, foldlM_cons, foldlM_nil, bind_pure, Run.feed, empty_append]
    refine (Run.read_timed hg hpun hclear.sound hshape h1 hn1 fun a z hs => ?_).mono
      (fun r' d' h' => ⟨h'.1, .inr h'.2.1, h'.2.2⟩) fun _ _ he => he
    have := hdue.ready .node hkind hbranches hs
    rw [append_empty] at this
    rw [hbuilt, hplace]
    exact this
  · -- its nodes are met
    have hagrees : ∀ c ∈ d.kids id, d.Agrees (d.clear id) c := fun c hc =>
      hclear.frame.agrees hr.grove hr.plain (mem_append_left _ hc)
        (hr.grove.lt_of_refs (d.kids_sub id hc))
    have hset : (r.seek (d.place id)).Settled t := .inr (hdue.fails .node hkind)
    have hwordless : ∀ b ∈ d.branches id, b.Wordless := hwordless
    refine (Run.feed_all_timed hg hvisit hv hwordless hclear.sound hshape (hb.of_steady hclear.steady)
      (hclear.shallow hs) hn1 h1 hset fun i hi => ?_).mono
      (fun r' d' h' => ⟨h'.onTime, h'.settled, h'.path_eq⟩) fun _ _ he => he
    have hduei := hdue.dissolved hkind i
    rw [lead_of_none (hb id hkind), Kind.opener, hdel _ hkind, Option.getD_none,
      empty_append, branch_getElem hi] at hduei
    rw [hbuilt, hclear.texts_eq]
    exact hduei.of_agrees fun c hc =>
      hagrees c (mem_flatMap.mpr ⟨_, getElem_mem hi, hc⟩)

theorem visit_keepsTime (levels : Nat) :
    KeepsTime t fits through enter levels (g.visit through enter levels) := by
  induction levels with
  | zero => exact fun _ _ _ hs => hs.elim
  | succ n ih =>
    intro d r id L before hr hf hb hs hn h hset hdue
    have hvisit : Faithful fits through n (g.visit through enter n) := visit_faithful hg hdel n
    rw [visit]
    refine .bind_ok rfl ?_
    split_ifs with hthrough
    · -- the node is dissolved
      have hkind : d.kind id ∈ through := contains_iff_mem.mp hthrough
      refine .bind_ok rfl ?_
      refine .bind_ok (a := d.branches id) rfl ?_
      exact visit_dissolved hg hpun hdel hvisit ih hr hf hb hs hn h hdue hkind
    · -- the node is kept
      have hkind : d.kind id ∉ through := fun hk => hthrough (contains_iff_mem.mpr hk)
      have hgrove : d.Grove (id :: (r.loose ++ L)) := hr.grove.perm perm_middle
      obtain ⟨harrives, -⟩ := (timed_cons_node.mp hdue.timed).1
      refine .bind_ok rfl ?_
      split_ifs with henter
      · have hkind' : d.kind id ∈ enter := contains_iff_mem.mp henter
        have hwordless := (hdue.tidy id mem_cons_self id .refl).2 hkind'
        have hbegins : ∀ i < (d.branches id).length, Begins t through enter d (d.place id)
            (before ++ r.built d ++ d.lead id i) (d.branch id i) := fun i _ =>
          .inl ⟨Wordless.branch hwordless i, hdue.entered hkind hkind' i⟩
        refine (tokenizeBranches_timed hg hpun hvisit ih hgrove hr.plain hb hs hn
          hbegins).bind fun _ d1 h1 => ?_
        have hframe : d.Frame d1 r.loose := h1.frame.mono (subset_append_left _ _)
        refine .pure ⟨(h.of_frame hr hframe).append (timed_cons_node.mpr
          ⟨⟨?_, fun i => ?_⟩, timed_nil⟩), ?_, Run.place_append r _ ▸ rfl⟩
        · rw [hr.built_eq hframe h1.steady, h1.place_eq]
          exact harrives
        · rw [hr.built_eq hframe h1.steady, h1.lead_eq]
          by_cases hi : i < (d.branches id).length
          · exact h1.done i hi
          · have hemp : d1.branch id i = [] :=
              getD_eq_default _ _ (by
                have := h1.length_eq
                rw [Document.branches] at this
                omega)
            rw [hemp]
            exact timed_nil
        · rw [Run.Settled, Run.states_append, Run.place_append]
          exact hset
      · refine .pure ⟨h.append hdue.timed, ?_, Run.place_append r _ ▸ rfl⟩
        rw [Run.Settled, Run.states_append, Run.place_append]
        exact hset

theorem tokenize_timed (h : d.Grove (id :: L)) (hp : d.Plain)
    (hb : Bodiless through d) (hn : t.since ≤ d.size) (hbegins : ∀ i < (d.branches id).length,
      Begins t through enter d (d.place id) (before ++ d.lead id i) (d.branch id i)) :
    Yields (g.tokenize through enter id) d
      (fun _ d' => Underway t before d id L (d.branches id).length d') fun e _ => t.Allows e := by
  refine .bind_ok rfl ?_
  exact tokenizeBranches_timed hg hpun (visit_faithful hg hdel d.size)
    (visit_keepsTime hg hpun hdel d.size) h hp hb
    ((h.shallow h.lt_head).mono (Nat.le_succ _)) hn hbegins

end

end Grammar

end Stencil
