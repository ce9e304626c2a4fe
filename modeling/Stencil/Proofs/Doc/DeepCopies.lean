import Stencil.Proofs.Doc.Likeness

/-!
# Deep copies

A copy of a node has a node of its own for everything that is reached from it. The new nodes take the
next free numbers, breadth first, and each is the twin of a node that was copied (`Node.Twin`): it has
the same kind, place and text, and refers to the copies of what that node refers to. `DeepCopy` puts
this together.

So where following names never comes back to where it started (`EndsWriting`), the copy is written like
the original. **All this holds of copies within a document and of copies from another one**
(`copies_exact`).
-/

namespace Stencil

open List

variable {l : List NodeId} {x x' : NodeId} {φ : NodeId → NodeId}
  {link outside : NodeId → Option NodeId}

namespace Node

variable {n n' : Node}

/-- The same node with other numbers: what it refers to is given by `φ`, and the identifier whose name
it follows, if there still is one, by `link`. -/
structure Twin (φ : NodeId → NodeId) (link : NodeId → Option NodeId) (n n' : Node) : Prop where
  kind_eq : n'.kind = n.kind
  place_eq : n'.place = n.place
  branches_eq : n'.branches = n.branches.map (Branch.renumber φ)
  body?_eq : n'.body? = n.body?.map (Body.renumber φ)
  naming?_eq : n'.naming? = n.naming?.map fun m => { m with target := m.target.bind link }

theorem twin_renumber (φ : NodeId → NodeId) (link : NodeId → Option NodeId) (n : Node) :
    n.Twin φ link (Document.renumber φ link n) where
  kind_eq := rfl
  place_eq := rfl
  branches_eq := branches_renumber φ link n
  body?_eq := by
    cases hp : n.payload with
    | none => simp [body?, Document.renumber, hp]
    | naming m => simp [body?, Document.renumber, hp]
    | body b => simp only [body?, renumber_of_body hp, hp, Option.map_some]
  naming?_eq := by
    cases hp : n.payload <;> simp [naming?, Document.renumber, hp]

namespace Twin

theorem payload_eq (h : n.Twin φ link n') : n'.payload = n.payload.renumber φ link := by
  have hbody := h.body?_eq
  have hnaming := h.naming?_eq
  simp only [body?, naming?] at hbody hnaming
  cases hp : n.payload <;> cases hp' : n'.payload <;> simp_all [Payload.renumber]

theorem refl (n : Node) : n.Twin id some n where
  kind_eq := rfl
  place_eq := rfl
  branches_eq := by simp [funext Branch.renumber_id]
  body?_eq := by cases n.body? <;> simp [Body.renumber]
  naming?_eq := by cases n.naming? <;> simp

end Twin

end Node

namespace Document

variable {d d' s : Document}
  {a c y z z' : NodeId} {n m k : Nat}

/-! ### Writing -/

/-- Writing a node comes to an end: on the way along the nodes that are asked for nothing leads back to
where it was, and nothing leads out of the document. Where owners are unique, only a name that is
followed can lead back. -/
structure EndsWriting (d : Document) (x : NodeId) : Prop where
  lt_size : ∀ {y}, Reaches d.asks x y → y < d.size
  acyclic : ∀ {y c}, Reaches d.asks x y → c ∈ d.asks y → ¬ Reaches d.asks c y

theorem EndsWriting.shallow (h : d.EndsWriting x) : Shallow d.asks d.size x := by
  refine shallow_of_descents fun y path hd => ?_
  -- what was met earlier leads to where the way has got to
  have hlead : ∀ {y path}, Descent d.asks x y path → ∀ z ∈ path, Reaches d.asks x z ∧
      Reaches d.asks z y := by
    intro y path hd
    induction hd with
    | top =>
      intro z hz
      rw [mem_singleton.mp hz]
      exact ⟨.refl, .refl⟩
    | step hd hc ih =>
      intro z hz
      rcases mem_cons.mp hz with rfl | hz
      · exact ⟨hd.reaches.tail hc, .refl⟩
      · exact ⟨(ih z hz).1, (ih z hz).2.tail hc⟩
  refine ⟨?_, fun z hz => h.lt_size (hlead hd z hz).1⟩
  induction hd with
  | top => exact nodup_singleton x
  | step hd hc ih =>
    exact nodup_cons.mpr ⟨fun hmem => h.acyclic hd.reaches hc (hlead hd _ hmem).2, ih⟩

/-- No name in what is reached from a node follows an identifier outside of it. -/
def LinksStay (d : Document) (x : NodeId) : Prop :=
  ∀ {a t}, Reaches d.refs x a → (d.node a).naming.target = some t → Reaches d.refs x t

theorem mem_refs_or_target_of_mem_asks (hc : c ∈ d.asks a) :
    c ∈ d.refs a ∨ (d.node a).naming.target = some c := by
  cases hp : (d.node a).payload with
  | none =>
    simp only [asks, Node.asks, hp] at hc
    exact .inl (d.kids_sub a hc)
  | body b =>
    simp only [asks, Node.asks, hp] at hc
    exact .inl hc
  | naming m =>
    simp only [asks, Node.asks, hp] at hc
    split_ifs at hc
    · cases hc
    · exact .inl (refs_of_children hc)
    · refine .inr ?_
      rw [Node.naming, Node.naming?, hp]
      exact Option.mem_toList.mp hc

theorem writeNode_eq_of_rel {R : NodeId → NodeId → Prop}
    (hrelated : ∀ z z', R z z' → ∀ w w' : NodeId → String,
      (∀ c c', c ∈ s.asks z → R c c' → w c = w' c') → s.writeDefault w z = d.writeDefault w' z')
    {levels levels' : Nat} (hs : Shallow s.asks n z) (hr : R z z') (hn : n ≤ levels)
    (hn' : n ≤ levels') :
    s.writeNode Manner.source levels z = d.writeNode Manner.source levels' z' := by
  induction n generalizing z z' levels levels' with
  | zero => exact hs.elim
  | succ n ih =>
    obtain ⟨levels, rfl⟩ : ∃ k, levels = k + 1 := ⟨levels - 1, by omega⟩
    obtain ⟨levels', rfl⟩ : ∃ k, levels' = k + 1 := ⟨levels' - 1, by omega⟩
    exact hrelated z z' hr _ _ fun c c' hc hr' => ih (hs c hc) hr' (by omega) (by omega)

theorem writeDefault_eq_of_twin {w w' : NodeId → String} (h : (s.node z).Twin φ link (d.node z'))
    (hw : ∀ c ∈ s.asks z, c ∈ s.refs z → w c = w' (φ c)) (hz : link z = some z')
    (hlink : ∀ t ∈ s.asks z, (s.node z).naming.target = some t → t ≠ z →
      ∃ t', link t = some t' ∧ t' ≠ z' ∧ w t = w' t') : s.writeDefault w z = d.writeDefault w' z' :=
  writeDefault_rel (R := Eq) (fun _ => rfl) (fun hs ht => hs ▸ ht ▸ rfl) h.kind_eq h.branches_eq
    h.payload_eq hw hz hlink

/-! ### Copies -/

theorem spread_eq_append (hl : ∀ a ∈ l, Shallow d.refs n a) :
    d.spread (l.map (d.weight n)).sum l =
      l ++ (d.spread (l.map (d.weight n)).sum l).flatMap d.refs := by
  generalize hsteps : (l.map (d.weight n)).sum = steps
  induction steps generalizing l with
  | zero =>
    cases l with
    | nil => rfl
    | cons a l =>
      have := weight_eq_add (hl a mem_cons_self)
      rw [map_cons, sum_cons] at hsteps
      omega
  | succ steps ih =>
    cases l with
    | nil => rfl
    | cons a l =>
      obtain ⟨hmore, hsum⟩ := weight_step hl hsteps
      rw [spread_cons, flatMap_cons, cons_append]
      conv_lhs => rw [ih hmore hsum, append_assoc]

theorem reached_eq_cons (h : Shallow d.refs d.size x) :
    d.reached x = x :: (d.reached x).flatMap d.refs := by
  have hw := spread_eq_append (d := d) (n := d.size) (l := [x]) (by simpa using h)
  simpa [reached] using hw

/-- `copy` is what copying the node `x` of `s` to `d` gives: a number and a document. The copy of a node
has the number that `φ` gives, and a name that followed an identifier follows what `link` gives. For an
identifier that is not copied, this is what `outside` says. -/
structure DeepCopy (s : Document) (x : NodeId) (outside : NodeId → Option NodeId) (d : Document)
    (copy : NodeId × Document) (φ : NodeId → NodeId) (link : NodeId → Option NodeId) : Prop where
  number_eq : copy.1 = d.size ∧ φ x = d.size
  node_eq : ∀ y < d.size, copy.2.node y = d.node y
  /-- What is reached gets the next free numbers, one each, breadth first. -/
  numbers : ∃ l : List NodeId, l = x :: l.flatMap s.refs ∧ l.Nodup ∧
    (∀ a, a ∈ l ↔ Reaches s.refs x a) ∧ l.map φ = List.range' d.size l.length ∧
    copy.2.size = d.size + l.length
  /-- The copy of a node is the same node with other numbers. -/
  twin : ∀ a, Reaches s.refs x a → (s.node a).Twin φ link (copy.2.node (φ a))
  link_inside : ∀ t, Reaches s.refs x t → link t = some (φ t)
  link_outside : ∀ t, ¬ Reaches s.refs x t → link t = outside t
  /-- The copy consists of the copies of what is reached. -/
  reaches_iff : ∀ z, Reaches copy.2.refs copy.1 z ↔ ∃ a, Reaches s.refs x a ∧ z = φ a

section Numbers

theorem copyTarget_of_mem (hn : l.Nodup) (hx : x ∈ l) :
    copyTarget k l outside x = some (copyNumber k l x) := by
  obtain ⟨i, hi, rfl⟩ := getElem_of_mem hx
  rw [copyTarget, lookup_getElem hn hi, copyNumber_getElem hn hi]
  rfl

theorem copyTarget_of_not_mem (hx : x ∉ l) : copyTarget k l outside x = outside x := by
  have hnone : (l.zipIdx k).reverse.lookup x = none := by
    refine lookup_eq_none_iff.mpr fun p hp => ?_
    rw [mem_reverse] at hp
    rw [bne_iff_ne]
    rintro rfl
    exact hx (fst_mem_of_mem_zipIdx hp)
  rw [copyTarget, hnone, Option.none_or]

end Numbers

theorem UniqueOwner.deepCopy (h : s.UniqueOwner x) (d : Document) (outside : NodeId → Option NodeId) :
    ∃ φ link, DeepCopy s x outside d (d.adopt s (s.reached x) outside) φ link := by
  have htree := h.isTree_reached
  have hmem : ∀ a, a ∈ s.reached x ↔ Reaches s.refs x a := fun a => mem_reached h.shallow
  set l := s.reached x with hl
  refine ⟨copyNumber d.size l, copyTarget d.size l outside, ⟨rfl, htree.copyNumber_eq⟩,
    fun y hy => node_adopt_of_lt hy,
    ⟨l, reached_eq_cons h.shallow, htree.nodup, hmem, map_copyNumber htree.nodup, size_adopt⟩,
    fun a ha => ?_, fun t ht => copyTarget_of_mem htree.nodup ((hmem t).mpr ht),
    fun t ht => copyTarget_of_not_mem fun hin => ht ((hmem t).mp hin), fun z => ?_⟩
  · obtain ⟨i, hi, rfl⟩ := getElem_of_mem ((hmem a).mpr ha)
    rw [copyNumber_getElem htree.nodup hi, node_adopt_add hi]
    exact Node.twin_renumber _ _ _
  · -- a copy refers to the copies of what the original refers to
    have hrefs : ∀ {a}, Reaches s.refs x a → (d.adopt s l outside).2.refs (copyNumber d.size l a) =
        (s.refs a).map (copyNumber d.size l) := fun ha =>
      refs_adopt_copyNumber htree.nodup ((hmem _).mpr ha)
    rw [show (d.adopt s l outside).1 = copyNumber d.size l x from htree.copyNumber_eq.symm]
    constructor
    · intro hz
      induction hz with
      | refl => exact ⟨x, .refl, rfl⟩
      | tail _ hc ih =>
        obtain ⟨a, ha, rfl⟩ := ih
        rw [hrefs ha] at hc
        obtain ⟨c, hca, rfl⟩ := mem_map.mp hc
        exact ⟨c, ha.tail hca, rfl⟩
    · rintro ⟨a, ha, rfl⟩
      induction ha with
      | refl => exact .refl
      | tail hp hc ih =>
        refine ih.tail ?_
        rw [hrefs hp]
        exact mem_map_of_mem hc

namespace DeepCopy

variable {copy : NodeId × Document}

theorem le (h : DeepCopy s x outside d copy φ link) (ha : Reaches s.refs x a) : d.size ≤ φ a := by
  obtain ⟨l, -, -, hmem, hnumbers, -⟩ := h.numbers
  have hin : φ a ∈ l.map φ := mem_map_of_mem ((hmem a).mpr ha)
  rw [hnumbers, mem_range'_1] at hin
  exact hin.1

theorem injOn (h : DeepCopy s x outside d copy φ link) (ha : Reaches s.refs x a)
    (hc : Reaches s.refs x c) (heq : φ a = φ c) : a = c := by
  obtain ⟨l, -, -, hmem, hnumbers, -⟩ := h.numbers
  have hnodup : (l.map φ).Nodup := hnumbers ▸ nodup_range'
  exact inj_on_of_nodup_map hnodup ((hmem a).mpr ha) ((hmem c).mpr hc) heq

theorem sourceOf_eq (h : DeepCopy d x some d copy φ link) (hx : d.EndsWriting x) :
    copy.2.sourceOf copy.1 = d.sourceOf x := by
  -- a node corresponds to its copy, and where it is found from outside also to itself
  have hrelated : ∀ z z', (Reaches d.asks x z ∧ (z' = z ∨ Reaches d.refs x z ∧ z' = φ z)) →
      ∀ w w' : NodeId → String, (∀ c c', c ∈ d.asks z →
        (Reaches d.asks x c ∧ (c' = c ∨ Reaches d.refs x c ∧ c' = φ c)) → w c = w' c') →
      d.writeDefault w z = copy.2.writeDefault w' z' := by
    rintro z z' ⟨hz, rfl | ⟨hin, rfl⟩⟩ w w' hw
    · have htwin : (d.node z').Twin id some (copy.2.node z') := by
        rw [h.node_eq z' (hx.lt_size hz)]
        exact .refl _
      exact writeDefault_eq_of_twin htwin (fun c hc _ => hw c c hc ⟨hz.tail hc, .inl rfl⟩) rfl
        fun t ht _ hne => ⟨t, rfl, hne, hw t t ht ⟨hz.tail ht, .inl rfl⟩⟩
    · refine writeDefault_eq_of_twin (h.twin z hin)
        (fun c hasks hc => hw c (φ c) hasks ⟨hz.tail hasks, .inr ⟨hin.tail hc, rfl⟩⟩)
        (h.link_inside z hin) fun t ht _ hne => ?_
      by_cases htin : Reaches d.refs x t
      · exact ⟨φ t, h.link_inside t htin, fun heq => hne (h.injOn htin hin heq),
          hw t (φ t) ht ⟨hz.tail ht, .inr ⟨htin, rfl⟩⟩⟩
      · refine ⟨t, h.link_outside t htin, ?_, hw t t ht ⟨hz.tail ht, .inl rfl⟩⟩
        exact ne_of_lt (lt_of_lt_of_le (hx.lt_size (hz.tail ht)) (h.le hin))
  obtain ⟨l, -, -, -, -, hsize⟩ := h.numbers
  refine (writeNode_eq_of_rel hrelated hx.shallow ⟨.refl, .inr ⟨.refl, ?_⟩⟩ (le_refl _) ?_).symm
  · rw [h.number_eq.1, h.number_eq.2]
  · rw [hsize]
    exact Nat.le_add_right _ _

theorem sourceOf_eq_of_linksStay (h : DeepCopy s x outside d copy φ link) (hs : s.UniqueOwner x)
    (hx : s.EndsWriting x) (hlinks : s.LinksStay x) : copy.2.sourceOf copy.1 = s.sourceOf x := by
  have hrelated : ∀ z z', (Reaches s.refs x z ∧ z' = φ z) → ∀ w w' : NodeId → String,
      (∀ c c', c ∈ s.asks z → (Reaches s.refs x c ∧ c' = φ c) → w c = w' c') →
      s.writeDefault w z = copy.2.writeDefault w' z' := by
    rintro z _ ⟨hz, rfl⟩ w w' hw
    refine writeDefault_eq_of_twin (h.twin z hz)
      (fun c hasks hc => hw c (φ c) hasks ⟨hz.tail hc, rfl⟩) (h.link_inside z hz)
      fun t ht htarget hne => ?_
    have hin := hlinks hz htarget
    exact ⟨φ t, h.link_inside t hin, fun heq => hne (h.injOn hin hz heq),
      hw t (φ t) ht ⟨hin, rfl⟩⟩
  -- what is asked for is in the copied part, so as many levels as it has nodes are enough
  obtain ⟨l, -, hnodup, hmem, -, hsize⟩ := h.numbers
  have hasked : ∀ y, Reaches s.asks x y → y ∈ l.toFinset := fun y hy => by
    rw [mem_toFinset, hmem]
    induction hy with
    | refl => exact .refl
    | tail _ hc ih =>
      rcases mem_refs_or_target_of_mem_asks hc with hc | hc
      · exact ih.tail hc
      · exact hlinks ih hc
  have hshallow := hx.shallow.of_card l.toFinset hasked
  rw [toFinset_card_of_nodup hnodup] at hshallow
  refine (writeNode_eq_of_rel hrelated hshallow ⟨.refl, ?_⟩ ?_ ?_).symm
  · rw [h.number_eq.1, h.number_eq.2]
  · have hsub : l ⊆ List.range s.size := fun a ha =>
      mem_range.mpr (hs.lt_size ((hmem a).mp ha))
    simpa using (hnodup.subperm hsub).length_le
  · rw [hsize]
    exact Nat.le_add_left _ _

end DeepCopy

/-- **Deep copies are exact and independent**, within a document and from another one. What was there is
as before, the copy is made of new nodes, which are the twins of what is reached from the original, and
names follow the copy of what they followed. A name that leads out of the copied part still follows the
same identifier in the same document, and nothing in another one. Where following names does not come
back, the copy is written like the original; in another document, if no name leads out. -/
theorem copies_exact :
    (∀ (d : Document) (x : NodeId), d.UniqueOwner x →
      ∃ φ link, DeepCopy d x some d (d.duplicate x) φ link ∧
        (d.EndsWriting x → (d.duplicate x).2.sourceOf (d.duplicate x).1 = d.sourceOf x)) ∧
    ∀ (d s : Document) (x : NodeId), s.UniqueOwner x →
      ∃ φ link, DeepCopy s x (fun _ => none) d (d.graft s x) φ link ∧
        (s.LinksStay x → s.EndsWriting x →
          (d.graft s x).2.sourceOf (d.graft s x).1 = s.sourceOf x) := by
  refine ⟨fun d x hx => ?_, fun d s x hx => ?_⟩
  · obtain ⟨φ, link, hcopy⟩ := hx.deepCopy d some
    exact ⟨φ, link, hcopy, hcopy.sourceOf_eq⟩
  · obtain ⟨φ, link, hcopy⟩ := hx.deepCopy d fun _ => none
    exact ⟨φ, link, hcopy, fun hlinks hwrite => hcopy.sourceOf_eq_of_linksStay hx hwrite hlinks⟩

/-! ### A scope with names -/

theorem UniqueOwner.below {top : NodeId} (h : d.UniqueOwner top) (hx : Reaches d.refs top x) :
    d.UniqueOwner x where
  lt_size hy := h.lt_size (hx.trans hy)
  top_free hy hc := h.not_reaches_mem (hx.trans hy) hc hy
  nodup hy := h.nodup (hx.trans hy)
  owner_eq hp hq := h.owner_eq (hx.trans hp) (hx.trans hq)

theorem EndsWriting.of_rank (rank : NodeId → Nat) (hx : x < d.size)
    (h : ∀ y < d.size, ∀ c ∈ d.asks y, c < d.size ∧ rank c < rank y) : d.EndsWriting x := by
  have hlt : ∀ {a y}, a < d.size → Reaches d.asks a y → y < d.size ∧ rank y ≤ rank a := by
    intro a y ha hy
    induction hy with
    | refl => exact ⟨ha, le_refl _⟩
    | tail _ hc ih => exact ⟨(h _ ih.1 _ hc).1, le_trans (le_of_lt (h _ ih.1 _ hc).2) ih.2⟩
  refine ⟨fun hy => (hlt hx hy).1, fun {y c} hy hc hback => ?_⟩
  have hc' := h y (hlt hx hy).1 c hc
  exact not_lt.mpr (hlt hc'.1 hback).2 hc'.2

/-- A scope with two identifiers: the second follows the first, which follows one outside. -/
def linkedScope : Document :=
  let identifier (name : String) (target : Option NodeId) : Node :=
    { kind := .identifier, place := Place.startOf "t", branches := [[.text name]],
      payload := .naming { target } }
  ⟨#[{ kind := .root, place := Place.startOf "t", branches := [[.node 4, .node 1]] },
    { kind := .scope, place := Place.startOf "t", branches := [[.node 2, .text ";", .node 3]] },
    identifier "a" (some 4), identifier "b" (some 2), identifier "c" none]⟩

theorem owner_linkedScope : linkedScope.UniqueOwner root :=
  .of_slots (by decide) (by decide) (by decide) (by decide)

theorem endsWriting_linkedScope (hx : x < 5) : linkedScope.EndsWriting x :=
  .of_rank (fun x => [4, 3, 1, 2, 0].getD x 0) hx (by decide)

/-- The second name in the copy of the scope follows the copy of the first, and the first one still the
outer name. A copy of the whole has a copy of that too. -/
theorem copies_exact_linkedScope :
    (∃ φ link, DeepCopy linkedScope 1 some linkedScope (linkedScope.duplicate 1) φ link ∧
      link 2 = some (φ 2) ∧ link 4 = some 4 ∧
      (linkedScope.duplicate 1).2.sourceOf (linkedScope.duplicate 1).1 = linkedScope.sourceOf 1) ∧
    ∃ φ link, DeepCopy linkedScope root (fun _ => none) (ofSource "t" "x")
        ((ofSource "t" "x").graft linkedScope root) φ link ∧
      ((ofSource "t" "x").graft linkedScope root).2.sourceOf
        ((ofSource "t" "x").graft linkedScope root).1 = linkedScope.sourceOf root := by
  have hscope : linkedScope.UniqueOwner 1 := owner_linkedScope.below (.child (by decide))
  obtain ⟨φ, link, hcopy, hsource⟩ := copies_exact.1 linkedScope 1 hscope
  obtain ⟨φ', link', hcopy', hsource'⟩ :=
    copies_exact.2 (ofSource "t" "x") linkedScope root owner_linkedScope
  have hin : Reaches linkedScope.refs 1 2 := (mem_reached hscope.shallow).mp (by decide)
  have hout : ¬ Reaches linkedScope.refs 1 4 := (mem_reached hscope.shallow).not.mp (by decide)
  have hall : ∀ t < 5, Reaches linkedScope.refs root t := fun t ht =>
    (mem_reached owner_linkedScope.shallow).mp (by revert t; decide)
  have hlinks : linkedScope.LinksStay root := by
    have htargets : ∀ a < 5, ∀ t ∈ (linkedScope.node a).naming.target, t < 5 := by decide
    intro a t ha ht
    exact hall t (htargets a (owner_linkedScope.lt_size ha) t ht)
  exact ⟨⟨φ, link, hcopy, hcopy.link_inside 2 hin, hcopy.link_outside 4 hout,
      hsource (endsWriting_linkedScope (by decide))⟩,
    ⟨φ', link', hcopy', hsource' hlinks (endsWriting_linkedScope (by decide))⟩⟩

end Document

end Stencil
