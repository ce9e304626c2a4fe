import Stencil.Proofs.Doc.Retelling
import Stencil.Proofs.Lexing.Tokens

/-!
# Where a node stands

`Document.Stands d b pre x` says that the node `x` is somewhere in the branch `b`, and that `pre` is
what is written for the branch in front of it. The nodes that stand in a branch are those below its
nodes (`exists_stands_iff`), and what is written for the branch is what is in front of a node, the node
and some more (`Stands.text_eq`).

A requirement `T` on what is in front of a node, the node and its place is met throughout a branch if
`Document.Timed d T before b` holds, where `before` is in front of the branch.
-/

namespace Stencil

open List

variable {d d' : Document} {before : String} {T : String → NodeId → Place → Prop}

namespace Document

variable {b b' : Branch} {p c x y : NodeId} {i : Nat} {pre s : String}
  {L L' : List NodeId}

def lead (d : Document) (p : NodeId) (i : Nat) : String :=
  let texts := ((d.branches p).map d.text).take i
  match (d.node p).body? with
  | none => (d.kind p).opener ++ String.join texts
  | some body =>
    (d.kind p).openingDelimiters.1 ++ d.text body.opening ++ (d.kind p).openingDelimiters.2 ++
      String.join (texts.zipIdx.map fun t => writeMarkers d.sourceOf body t.2 ++ t.1) ++
      writeMarkers d.sourceOf body i

theorem lead_of_none (h : (d.node p).payload = .none) (i : Nat) :
    d.lead p i = (d.kind p).opener ++ String.join (((d.branches p).map d.text).take i) := by
  simp only [lead, Node.body?, h]

theorem lead_eq (hk : d'.kind p = d.kind p) (hp : (d'.node p).payload = (d.node p).payload)
    (hbs : (d'.branches p).map d'.text = (d.branches p).map d.text)
    (hw : ∀ c ∈ (d.node p).body.references, d'.sourceOf c = d.sourceOf c) (i : Nat) :
    d'.lead p i = d.lead p i := by
  have hbody : (d'.node p).body? = (d.node p).body? := by rw [Node.body?, hp]; rfl
  simp only [lead, hk, hbs, hbody]
  cases hb : (d.node p).body? with
  | none => rfl
  | some body =>
    rw [Node.body, hb, Option.getD_some] at hw
    have hopening : d'.text body.opening = d.text body.opening :=
      branch_congr fun c hc => hw c (Body.mem_references.mpr (.inl hc))
    have hmarkers : writeMarkers d'.sourceOf body = writeMarkers d.sourceOf body := by
      funext j
      refine congrArg String.join (map_congr_left fun m hm => hw m.2 ?_)
      exact Body.mem_references.mpr (.inr (.inl (mem_map_of_mem (mem_of_mem_filter hm))))
    simp only [hopening, hmarkers]

theorem lead_congr (hn : d'.node p = d.node p)
    (hw : ∀ c ∈ d.refs p, d'.sourceOf c = d.sourceOf c) (i : Nat) : d'.lead p i = d.lead p i := by
  refine lead_eq (by rw [kind, hn]; rfl) (by rw [hn]) ?_
    (fun c hc => hw c ((d.node p).body_refs_sub hc)) i
  rw [branches, hn]
  exact map_congr_left fun b hb => branch_congr fun c hc =>
    hw c (refs_of_branch hb hc)

theorem join_eq_take {α : Type} (f : α → String) (l : List α) (hi : i < l.length) :
    String.join (l.map f) =
      String.join ((l.take i).map f) ++ f l[i] ++ String.join ((l.drop (i + 1)).map f) := by
  conv_lhs => rw [← take_append_drop i l, drop_eq_getElem_cons hi]
  rw [map_append, map_cons, String.join_append, String.join_cons, String.append_assoc]

theorem Grove.sourceOf_eq_lead (h : d.Grove L) (hp : d.Plain) (hlt : p < d.size)
    (hi : i < (d.branches p).length) :
    ∃ post, d.sourceOf p = d.lead p i ++ d.text (d.branch p i) ++ post := by
  rw [h.sourceOf_eq hp hlt]
  have hbranch : d.branch p i = (d.branches p)[i] := branch_getElem hi
  have hi' : i < ((d.branches p).map d.text).length := by rw [length_map]; exact hi
  cases hpay : (d.node p).payload with
  | none =>
    refine ⟨String.join ((((d.branches p).map d.text).drop (i + 1))) ++ (d.kind p).closer, ?_⟩
    have hjoin := join_eq_take id ((d.branches p).map d.text) hi'
    simp only [map_id, id, getElem_map] at hjoin
    rw [write_of_none hpay, lead_of_none hpay, hbranch, writeBranches, hjoin]
    simp only [String.append_assoc]
    rfl
  | body body =>
    set write := fun t : String × Nat => writeMarkers d.sourceOf body t.2 ++ t.1
    refine ⟨String.join (((((d.branches p).map d.text).zipIdx).drop (i + 1)).map write) ++
      (body.closing.map d.sourceOf).getD "", ?_⟩
    have hz : i < (((d.branches p).map d.text).zipIdx).length := by
      rw [length_zipIdx]
      exact hi'
    have hjoin := join_eq_take write (((d.branches p).map d.text).zipIdx) hz
    have htake : (((d.branches p).map d.text).zipIdx).take i =
        (((d.branches p).map d.text).take i).zipIdx := by
      exact ext_getElem (by simp) fun j hj hj' => by simp
    rw [htake] at hjoin
    simp only [getElem_zipIdx, getElem_map, Nat.zero_add] at hjoin
    have hbody : (d.node p).body? = some body := by rw [Node.body?, hpay]
    rw [write_of_body hpay, writeBody_def, hjoin, lead, hbody, hbranch]
    simp only [String.append_assoc, write]
  | naming m => exact absurd (hp p) (by rw [Node.naming?, hpay]; exact Option.some_ne_none m)

/-- Somewhere in the branch stands the node, behind the given text. -/
inductive Stands (d : Document) : Branch → String → NodeId → Prop where
  | node {x : NodeId} {b : Branch} : Stands d (.node x :: b) "" x
  | inside {p x : NodeId} {b : Branch} {i : Nat} {pre : String} :
      Stands d (d.branch p i) pre x → Stands d (.node p :: b) (d.lead p i ++ pre) x
  | skipNode {p x : NodeId} {b : Branch} {pre : String} :
      Stands d b pre x → Stands d (.node p :: b) (d.sourceOf p ++ pre) x
  | skipText {s : String} {x : NodeId} {b : Branch} {pre : String} :
      Stands d b pre x → Stands d (.text s :: b) (s ++ pre) x

theorem mem_kids_of_branch (h : x ∈ (d.branch p i).nodes) : x ∈ d.kids p :=
  mem_kids.mpr ⟨_, branch_mem (lt_of_mem_branch h), h⟩

theorem exists_branch_of_mem_kids (h : x ∈ d.kids p) :
    ∃ i < (d.branches p).length, x ∈ (d.branch p i).nodes := by
  obtain ⟨b, hb, hx⟩ := mem_kids.mp h
  obtain ⟨i, hi, rfl⟩ := mem_iff_getElem.mp hb
  exact ⟨i, hi, by rwa [branch_getElem hi]⟩

theorem Stands.reaches (h : d.Stands b pre x) : ∃ c ∈ b.nodes, Reaches d.kids c x := by
  induction h with
  | node => exact ⟨_, mem_cons_self, .refl⟩
  | @inside p x b i pre h ih =>
    obtain ⟨c, hc, hr⟩ := ih
    exact ⟨p, mem_cons_self, .head (mem_kids_of_branch hc) hr⟩
  | skipNode h ih =>
    obtain ⟨c, hc, hr⟩ := ih
    exact ⟨c, mem_cons_of_mem _ hc, hr⟩
  | skipText h ih => exact ih

theorem exists_stands_of_mem (hc : c ∈ b.nodes)
    (h : ∀ b', ∃ pre, d.Stands (.node c :: b') pre x) : ∃ pre, d.Stands b pre x := by
  induction b with
  | nil => cases hc
  | cons f b ih =>
    cases f with
    | text s =>
      obtain ⟨pre, hpre⟩ := ih hc
      exact ⟨_, .skipText hpre⟩
    | node p =>
      rcases mem_cons.mp hc with rfl | hc
      · exact h b
      · obtain ⟨pre, hpre⟩ := ih hc
        exact ⟨_, .skipNode hpre⟩

theorem exists_stands_iff : (∃ pre, d.Stands b pre x) ↔ ∃ c ∈ b.nodes, Reaches d.kids c x := by
  refine ⟨fun ⟨pre, h⟩ => h.reaches, fun ⟨c, hc, hr⟩ => ?_⟩
  refine exists_stands_of_mem hc ?_
  clear hc
  induction hr using Relation.ReflTransGen.head_induction_on with
  | refl => exact fun b' => ⟨_, .node⟩
  | @head p c hpc _ ih =>
    obtain ⟨i, -, hmem⟩ := exists_branch_of_mem_kids hpc
    obtain ⟨pre, hpre⟩ := exists_stands_of_mem hmem ih
    exact fun b' => ⟨_, .inside hpre⟩

theorem Stands.text_eq (h : d.Grove L) (hp : d.Plain) (hb : ∀ c ∈ b.nodes, c < d.size)
    (hs : d.Stands b pre x) : ∃ post, d.text b = pre ++ d.sourceOf x ++ post := by
  induction hs with
  | @node x b => exact ⟨d.text b, by rw [text, branch_cons_node, String.empty_append]⟩
  | @inside p x b i pre hs ih =>
    have hlt : p < d.size := hb p mem_cons_self
    obtain ⟨post, hpost⟩ := ih fun c hc =>
      h.lt_of_refs (d.kids_sub p (mem_kids_of_branch hc))
    obtain ⟨c, hc, -⟩ := hs.reaches
    obtain ⟨post', hpost'⟩ := h.sourceOf_eq_lead hp hlt (lt_of_mem_branch hc)
    refine ⟨post ++ post' ++ d.text b, ?_⟩
    rw [text, branch_cons_node, hpost', hpost]
    simp only [String.append_assoc]
  | @skipNode p x b pre hs ih =>
    obtain ⟨post, hpost⟩ := ih fun c hc => hb c (mem_cons_of_mem _ hc)
    exact ⟨post, by
      rw [text] at hpost ⊢
      rw [branch_cons_node, hpost]
      simp only [String.append_assoc]⟩
  | @skipText s x b pre hs ih =>
    obtain ⟨post, hpost⟩ := ih hb
    exact ⟨post, by
      rw [text] at hpost ⊢
      rw [branch_cons_text, hpost]
      simp only [String.append_assoc]⟩

/-- Below a node two documents agree: on the nodes and on what is written for them. -/
def Agrees (d d' : Document) (y : NodeId) : Prop :=
  ∀ x, Reaches d.refs y x → d'.node x = d.node x ∧ d'.sourceOf x = d.sourceOf x

theorem Frame.agrees (h : d.Frame d' L) (hg : d.Grove L') (hp : d.Plain) (hy : y ∈ L)
    (hlt : y < d.size) : d.Agrees d' y :=
  fun x hr => ⟨h.node_eq y hy x hr, h.sourceOf_eq hg hp hy hlt hr⟩

theorem Agrees.child (h : d.Agrees d' y) (hc : c ∈ d.refs y) : d.Agrees d' c :=
  fun x hr => h x ((Reaches.child hc).trans hr)

theorem Agrees.trans {d'' : Document} (h : d.Agrees d' y) (h' : d'.Agrees d'' y) : d.Agrees d'' y := by
  intro x hx
  have hx' : Reaches d'.refs y x := hx.congr fun z hz => by
    rw [refs, (h z hz).1]
    rfl
  exact ⟨(h' x hx').1.trans (h x hx).1, (h' x hx').2.trans (h x hx).2⟩

theorem Agrees.branch_eq (h : d.Agrees d' y) (i : Nat) : d'.branch y i = d.branch y i := by
  rw [branch, (h y .refl).1]
  rfl

theorem Agrees.lead_eq (h : d.Agrees d' y) (i : Nat) : d'.lead y i = d.lead y i :=
  lead_congr (h y .refl).1 (fun _ hc => (h _ (.child hc)).2) i

theorem Stands.of_agrees (h : ∀ c ∈ b.nodes, d.Agrees d' c) (hs : d'.Stands b pre x) :
    d.Stands b pre x ∧ d'.node x = d.node x := by
  induction hs with
  | node => exact ⟨.node, (h _ mem_cons_self _ .refl).1⟩
  | @inside p x b i pre hs ih =>
    have hp : d.Agrees d' p := h p mem_cons_self
    rw [hp.branch_eq] at ih
    obtain ⟨hstands, hnode⟩ := ih fun c hc =>
      hp.child (d.kids_sub p (mem_kids_of_branch hc))
    rw [hp.lead_eq]
    exact ⟨.inside hstands, hnode⟩
  | @skipNode p x b pre hs ih =>
    obtain ⟨hstands, hnode⟩ := ih fun c hc => h c (mem_cons_of_mem _ hc)
    rw [(h p mem_cons_self p .refl).2]
    exact ⟨.skipNode hstands, hnode⟩
  | skipText hs ih =>
    obtain ⟨hstands, hnode⟩ := ih h
    exact ⟨.skipText hstands, hnode⟩

/-- The requirement is met by all nodes that stand in a branch with the given text in front of it. -/
def Timed (d : Document) (T : String → NodeId → Place → Prop) (before : String) (b : Branch) :
    Prop :=
  ∀ pre x, d.Stands b pre x → T (before ++ pre) x (d.place x)

section Timed

theorem timed_nil : d.Timed T before [] := fun _ _ h => nomatch h

theorem timed_cons_text : d.Timed T before (.text s :: b) ↔ d.Timed T (before ++ s) b := by
  constructor
  · intro h pre x hs
    rw [String.append_assoc]
    exact h _ x (.skipText hs)
  · intro h pre x hs
    cases hs with
    | skipText hs =>
      rw [← String.append_assoc]
      exact h _ x hs

theorem timed_cons_node : d.Timed T before (.node c :: b) ↔
    (T before c (d.place c) ∧ ∀ i, d.Timed T (before ++ d.lead c i) (d.branch c i)) ∧
      d.Timed T (before ++ d.sourceOf c) b := by
  constructor
  · intro h
    refine ⟨⟨?_, fun i pre x hs => ?_⟩, fun pre x hs => ?_⟩
    · have := h "" c .node
      rwa [String.append_empty] at this
    · rw [String.append_assoc]
      exact h _ x (.inside hs)
    · rw [String.append_assoc]
      exact h _ x (.skipNode hs)
  · rintro ⟨⟨hc, hin⟩, hb⟩ pre x hs
    cases hs with
    | node => rwa [String.append_empty]
    | inside hs =>
      rw [← String.append_assoc]
      exact hin _ _ x hs
    | skipNode hs =>
      rw [← String.append_assoc]
      exact hb _ x hs

theorem timed_append : d.Timed T before (b ++ b') ↔
    d.Timed T before b ∧ d.Timed T (before ++ d.text b) b' := by
  induction b generalizing before with
  | nil => simp [timed_nil]
  | cons f b ih =>
    cases f with
    | text s =>
      rw [cons_append, timed_cons_text, timed_cons_text, ih]
      simp only [text, branch_cons_text, String.append_assoc]
    | node p =>
      rw [cons_append, timed_cons_node, timed_cons_node, ih]
      simp only [text, branch_cons_node, String.append_assoc, and_assoc]

theorem timed_stack (b : Branch) (f : Fragment) : d.Timed T before (b.stack f).reverse ↔
    d.Timed T before b.reverse ∧ d.Timed T (before ++ d.text b.reverse) [f] := by
  cases f with
  | node id => rw [Branch.stack, reverse_cons, timed_append]
  | text s =>
    have htext : ∀ before, d.Timed T before [.text s] := fun _ =>
      timed_cons_text.mpr timed_nil
    simp only [Branch.stack, htext, and_true]
    split_ifs with hs
    · rfl
    · split
      case h_1 t more =>
        rw [reverse_cons, reverse_cons, timed_append, timed_append, timed_cons_text, timed_cons_text]
        simp [timed_nil]
      case h_2 => rw [reverse_cons, timed_append, timed_cons_text]; simp [timed_nil]

theorem Timed.of_agrees (h : d.Timed T before b) (ha : ∀ c ∈ b.nodes, d.Agrees d' c) :
    d'.Timed T before b := by
  intro pre x hs
  obtain ⟨hstands, hnode⟩ := hs.of_agrees ha
  rw [place, hnode]
  exact h pre x hstands

end Timed

end Document

namespace Pile

open Document (Timed Agrees)

variable {p : Pile}

abbrev written (d : Document) (p : Pile) : String := p.text (fun x => (d.kind x).opener) d.sourceOf

/-- The requirement is met by the open nodes and by what they hold. -/
def OpenedTimed (d : Document) (T : String → NodeId → Place → Prop) (before : String) :
    List (NodeId × Branch) → Prop
  | [] => True
  | (x, b) :: opened =>
    OpenedTimed d T before opened ∧
      T (before ++ openedText (fun x => (d.kind x).opener) d.sourceOf opened) x (d.place x) ∧
      d.Timed T (before ++ openedText (fun x => (d.kind x).opener) d.sourceOf opened ++
        (d.kind x).opener) b.reverse

def Timed (d : Document) (T : String → NodeId → Place → Prop) (before : String) (p : Pile) : Prop :=
  d.Timed T before p.out.reverse ∧ OpenedTimed d T (before ++ d.text p.out.reverse) p.opened

theorem timed_add (p : Pile) (f : Fragment) : (p.add f).Timed d T before ↔
    p.Timed d T before ∧ d.Timed T (before ++ p.written d) [f] := by
  rw [add]
  split
  case h_1 x b opened h =>
    simp only [Timed, h, OpenedTimed, Document.timed_stack, text, openedText, String.append_assoc]
    tauto
  case h_2 h =>
    simp only [Timed, h, OpenedTimed, and_true, Document.timed_stack, text, openedText,
      String.append_empty]

theorem timed_open (x : NodeId) : Timed d T before { p with opened := (x, []) :: p.opened } ↔
    p.Timed d T before ∧ T (before ++ p.written d) x (d.place x) := by
  simp only [Timed, OpenedTimed, reverse_nil, Document.timed_nil, and_true, text, String.append_assoc]
  tauto

theorem OpenedTimed.of_agrees {opened : List (NodeId × Branch)} (h : OpenedTimed d T before opened)
    (ha : ∀ x ∈ opened.flatMap (fun t => t.1 :: t.2.nodes), d.Agrees d' x) :
    OpenedTimed d' T before opened := by
  induction opened with
  | nil => trivial
  | cons t opened ih =>
    obtain ⟨x, b⟩ := t
    simp only [flatMap_cons, cons_append, forall_mem_cons, forall_mem_append]
      at ha
    obtain ⟨hx, hb, hopened⟩ := ha
    obtain ⟨h1, h2, h3⟩ := h
    have hkind : ∀ y, d.Agrees d' y → (d'.kind y).opener = (d.kind y).opener := fun y hy => by
      rw [Document.kind, (hy y .refl).1]
      rfl
    have htext : openedText (fun x => (d'.kind x).opener) d'.sourceOf opened =
        openedText (fun x => (d.kind x).opener) d.sourceOf opened := by
      refine openedText_congr (fun y hy => hkind y ?_) fun y hy => (hopened y hy y .refl).2
      obtain ⟨t, ht, rfl⟩ := mem_map.mp hy
      exact hopened _ (mem_flatMap.mpr ⟨t, ht, mem_cons_self⟩)
    refine ⟨ih h1 hopened, ?_, ?_⟩
    · rw [htext, Document.place, (hx x .refl).1]
      exact h2
    · rw [htext, hkind x hx]
      exact h3.of_agrees fun c hc => hb c (by simpa using hc)

theorem Timed.of_agrees (h : p.Timed d T before) (ha : ∀ x ∈ p.nodes, d.Agrees d' x) :
    p.Timed d' T before := by
  rw [nodes, forall_mem_append] at ha
  have hout : ∀ c ∈ Branch.nodes p.out.reverse, d.Agrees d' c := fun c hc =>
    ha.2 c (by simpa using hc)
  refine ⟨h.1.of_agrees hout, ?_⟩
  have htext : d'.text p.out.reverse = d.text p.out.reverse :=
    Document.branch_congr fun c hc => (hout c hc c .refl).2
  rw [htext]
  exact h.2.of_agrees ha.1

end Pile

end Stencil
