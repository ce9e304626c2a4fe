import Stencil.Proofs.Doc.Dissolving
import Stencil.Proofs.Doc.Replacing

/-!
# Outlines

The outline of a node lists the text and the nodes below it in document order, each node in front of
what is below it. Dissolving the nodes of a kind takes these nodes out of the outline, and nothing else;
removing nodes takes out each of them together with what is below it (`collapsing_and_removing_exact`).
-/

namespace Stencil

open Branch List

namespace Branch

variable {b : Branch}

/-- No text is empty, and no text is next to another. -/
def Smooth (b : Branch) : Prop :=
  .text "" ∉ b ∧ b.IsChain fun f g => f.node?.isSome ∨ g.node?.isSome

theorem Smooth.nil : Smooth [] := ⟨not_mem_nil, .nil⟩

theorem Smooth.reverse (h : b.Smooth) : Smooth b.reverse :=
  ⟨fun hmem => h.1 (mem_reverse.mp hmem), isChain_reverse.mpr (h.2.imp fun _ _ => Or.symm)⟩

theorem Smooth.stack (h : b.Smooth) (f : Fragment) : Smooth (b.stack f) := by
  obtain ⟨hne, hchain⟩ := h
  cases f with
  | node x =>
    refine ⟨by simpa [Branch.stack] using hne, ?_⟩
    cases b with
    | nil => exact .singleton _
    | cons g b => exact .cons_cons (.inl rfl) hchain
  | text s =>
    by_cases hs : s = ""
    · simpa [Branch.stack, hs] using ⟨hne, hchain⟩
    · rcases b with _ | ⟨t | x, b⟩
      · simp [Branch.stack, hs, Smooth]
      · rw [mem_cons, not_or] at hne
        have hjoined : t ++ s ≠ "" := fun h => hs (String.append_eq_empty_iff.mp h).2
        refine ⟨by simp [Branch.stack, hs, hjoined.symm, hne.2], ?_⟩
        rw [Branch.stack, if_neg hs]
        cases hchain with
        | singleton => exact .singleton _
        | cons_cons hr h => exact .cons_cons hr h
      · refine ⟨by simpa [Branch.stack, hs, Ne.symm hs] using hne, ?_⟩
        simpa [Branch.stack, hs, Fragment.node?] using hchain

end Branch

/-- What is told of an item with a given fate, where `below` is told of what is below a node. -/
def Item.told (fate : NodeId → Fate) (below : NodeId → List Item) : Item → List Item
  | .char c => [.char c]
  | .node x =>
    (if fate x = .kept then [.node x] else []) ++ if fate x = .removed then [] else below x

def Node.bare (n : Node) : Node := { n with branches := [] }

namespace Document

variable {d e : Document} {fate : NodeId → Fate} {id top x y : NodeId} {b : Branch} {i m n : Nat}

def SmoothAt (d : Document) (x : NodeId) : Prop := ∀ b ∈ d.branches x, b.Smooth

theorem SmoothAt.modify {f : Node → Node} (h : d.SmoothAt y)
    (hf : (∀ b ∈ d.branches x, b.Smooth) → ∀ b ∈ (f (d.node x)).branches, Branch.Smooth b) :
    (d.modify x f).SmoothAt y := by
  rw [SmoothAt, branches]
  rcases node_modify_cases d x f y with heq | ⟨-, rfl, heq⟩ <;> rw [heq]
  · exact h
  · exact hf h

theorem SmoothAt.setBranch (h : d.SmoothAt y) (hb : b.Smooth) : (d.setBranch x i b).SmoothAt y := by
  refine h.modify fun hx b' hb' => ?_
  rcases mem_or_eq_of_mem_set hb' with hb' | rfl
  · rcases mem_append.mp hb' with hb' | hb'
    · exact hx b' hb'
    · exact eq_of_mem_replicate hb' ▸ .nil
  · exact hb

/-- The text and the nodes below a node, at most `levels` deep, where each node has its fate. -/
def told (d : Document) (fate : NodeId → Fate) : (levels : Nat) → NodeId → List Item
  | 0, _ => []
  | levels + 1, id =>
    (Branch.items (d.branches id).flatten).flatMap (Item.told fate (d.told fate levels))

/-- The text and the nodes below a node in document order, each node in front of what is below it. -/
def outline (d : Document) (id : NodeId) : List Item := d.told (fun _ => .kept) d.size id

theorem told_of_shallow (hs : Shallow d.kids n x) (hnm : n ≤ m) : d.told fate m x = d.told fate n x := by
  induction n generalizing x m with
  | zero => exact hs.elim
  | succ n ih =>
    obtain ⟨m, rfl⟩ : ∃ k, m = k + 1 := ⟨m - 1, by omega⟩
    rw [told, told]
    refine flatMap_congr fun f hf => ?_
    cases f with
    | char c => rfl
    | node c =>
      rw [mem_items, nodes_flatten] at hf
      rw [Item.told, Item.told, ih (hs c hf) (by omega)]

theorem told_eq (hs : Shallow d.kids n x) : d.told fate n x =
    (Branch.items (d.branches x).flatten).flatMap (Item.told fate (d.told fate n)) :=
  (told_of_shallow hs (Nat.le_succ n)).symm

theorem filterMap_told (d : Document) (n : Nat) (id : NodeId) :
    (d.told (fun _ => .kept) n id).filterMap Item.node? = d.below (fun _ => true) n id := by
  induction n generalizing id with
  | zero => rfl
  | succ n ih =>
    rw [told, below_succ, kids, ← nodes_flatten, nodes_eq_filterMap]
    induction Branch.items (d.branches id).flatten with
    | nil => rfl
    | cons f l ihl =>
      cases f with
      | char c => exact ihl
      | node x => simp [Item.told, Item.node?, ihl, ih]

theorem mem_told_iff (hs : Shallow d.kids n id) :
    .node x ∈ d.told (fun _ => .kept) n id ↔ d.Encloses id x := by
  have hnode : .node x ∈ d.told (fun _ => .kept) n id ↔ x ∈ d.below (fun _ => true) n id := by
    rw [← filterMap_told, mem_filterMap]
    constructor
    · exact fun h => ⟨_, h, rfl⟩
    · rintro ⟨c | y, hy, hx⟩
      · cases hx
      · exact Option.some.inj hx ▸ hy
  rw [hnode]
  exact ⟨encloses_of_below, fun h => (Met.of_encloses h fun _ => rfl).mem_below hs⟩

theorem told_dissolved (d : Document) (p : NodeId → Prop) [DecidablePred p] (n : Nat) (id : NodeId) :
    d.told (fun x => if p x then .dissolved else .kept) n id =
      (d.told (fun _ => .kept) n id).filter fun f => f.node?.all fun x => ¬ p x := by
  induction n generalizing id with
  | zero => rfl
  | succ n ih =>
    rw [told, told, filter_flatMap]
    refine flatMap_congr fun f _ => ?_
    cases f with
    | char c => rfl
    | node x => by_cases hx : p x <;> simp [Item.told, Item.node?, hx, ih]

theorem Rebuilt.shallow (h : d.Rebuilt fate top d e) (hx : Reaches d.kids top x)
    (hkept : x = top ∨ fate x = .kept) (hs : Shallow d.kids n x) : Shallow e.kids n x := by
  induction n generalizing x with
  | zero => exact hs
  | succ n ih =>
    intro c hc
    obtain ⟨hkept, a, ha, hac⟩ := h.of_mem_kids hx hkept hc
    exact ih (hx.trans (.head ha hac)) (.inr hkept) ((hs a ha).reaches hac)

/-- **The outline after rebuilding is what was to be told before.** -/
theorem Rebuilt.told_eq (h : d.Rebuilt fate top d e) (hu : d.UniqueOwner top) (hx : Reaches d.kids top x)
    (hkept : x = top ∨ fate x = .kept) : e.told (fun _ => .kept) d.size x = d.told fate d.size x := by
  have hdeep : ∀ {y}, Reaches d.kids top y → Shallow d.kids d.size y := hu.shallow_kids.reaches
  have hs := hdeep hx
  -- by induction on what is below the node
  suffices hall : ∀ n x, Reaches d.kids top x → (x = top ∨ fate x = .kept) → Shallow d.kids n x →
      e.told (fun _ => .kept) d.size x = d.told fate d.size x from hall d.size x hx hkept hs
  intro n
  induction n with
  | zero => exact fun _ _ _ hs => hs.elim
  | succ n ih =>
    intro x hx hkept hs
    rw [Document.told_eq (h.shallow hx hkept (hdeep hx)), Document.told_eq (hdeep hx)]
    have hrecast := h.recast x hx (hkept.imp_right fun hk hdis => by rw [hk] at hdis; cases hdis)
    refine (Spreads.flatten hrecast.spread).flatMap_eq
      (P := fun z => Reaches d.kids top z ∧ Shallow d.kids n z) ⟨?_, fun _ => rfl, ?_, ?_, ?_⟩ fun y hy => ?_
    · exact fun y c hy hc => ⟨hy.1.tail hc, hy.2.reaches (Reaches.child hc)⟩
    · intro y hy hk
      simp [Item.told, hk, ih y hy.1 (.inr hk) hy.2]
    · intro y _ hk
      simp [Item.told, hk]
    · intro y hy hk
      rw [← Document.told_eq (hdeep hy.1)]
      simp [Item.told, hk]
    · rw [mem_items, nodes_flatten] at hy
      exact ⟨hx.tail hy, hs y hy⟩

theorem Spreads.mem_iff {b l : List Item} (h : d.Spreads fate b l) (hno : ∀ x, fate x ≠ .dissolved) :
    .node x ∈ l ↔ .node x ∈ b ∧ fate x = .kept := by
  induction h with
  | nil => simp
  | char _ ih => simpa using ih
  | @kept y _ _ hy _ ih =>
    rw [mem_cons, mem_cons, ih, Item.node.injEq]
    constructor
    · rintro (rfl | ⟨hx, hk⟩)
      · exact ⟨.inl rfl, hy⟩
      · exact ⟨.inr hx, hk⟩
    · rintro ⟨rfl | hx, hk⟩
      · exact .inl rfl
      · exact .inr ⟨hx, hk⟩
  | @removed y _ _ hy _ ih =>
    rw [ih, mem_cons, Item.node.injEq]
    refine and_congr_left fun hk => (or_iff_right ?_).symm
    rintro rfl
    rw [hy] at hk
    cases hk
  | dissolved hy => exact absurd hy (hno _)

theorem told_sublist (d : Document) (fate : NodeId → Fate) (n : Nat) (id : NodeId) :
    (d.told fate n id).Sublist (d.told (fun _ => .kept) n id) := by
  induction n generalizing id with
  | zero => exact .refl _
  | succ n ih =>
    refine List.Sublist.flatMap_right _ fun f _ => ?_
    cases f with
    | char c => exact .refl _
    | node x => cases hx : fate x <;> simp [Item.told, hx, ih, (ih x).cons]

/-- What a change of the branches below a node leaves as it was. -/
structure Tidied (d e : Document) (id : NodeId) : Prop where
  /-- No node has changed but for its branches. -/
  node_eq : ∀ x, e.node x = { d.node x with branches := e.branches x }
  /-- The outline has the nodes that are below now, -/
  mem_outline : ∀ x, .node x ∈ e.outline id ↔ e.Encloses id x
  /-- each of them once. -/
  nodup : ((e.outline id).filterMap Item.node?).Nodup
  smooth : (∀ x, Reaches d.kids id x → d.SmoothAt x) → ∀ x, Reaches e.kids id x → e.SmoothAt x

theorem Rebuilt.tidied (h : d.Rebuilt fate id d e) (hu : d.UniqueOwner id)
    (hbare : ∀ x, (e.node x).bare = (d.node x).bare)
    (hsmooth : ∀ x, d.SmoothAt x → e.SmoothAt x) : d.Tidied e id where
  node_eq x := congrArg (fun n : Node => { n with branches := e.branches x }) (hbare x)
  mem_outline x := by
    rw [outline, h.size_eq]
    exact mem_told_iff (h.shallow .refl (.inl rfl) hu.shallow_kids)
  nodup := by
    rw [outline, h.size_eq, h.told_eq hu .refl (.inl rfl)]
    refine Nodup.sublist ((d.told_sublist fate d.size id).filterMap _) ?_
    rw [filterMap_told]
    exact hu.nodup_below .refl _ _
  smooth hd x hx := hsmooth x (hd x (h.reaches .refl (.inl rfl) hx).1)

theorem rebuild_keeps {change : NodeId → Document → List Fragment × Document}
    (hchange : ∀ x e, (change x e).2 = e ∨ (change x e).2 = e.clear x) (d : Document) (n : Nat)
    (id : NodeId) :
    (∀ x, ((d.rebuild change n id).node x).bare = (d.node x).bare) ∧
      ∀ x, d.SmoothAt x → (d.rebuild change n id).SmoothAt x := by
  constructor
  · refine rebuild_induction (P := fun e => ∀ x, (e.node x).bare = (d.node x).bare)
      (B := fun _ => True) trivial (fun _ _ _ => trivial) (fun h _ x => ?_) (fun x e h y => ?_) fun _ => rfl
    · exact (modify_of_eq Node.bare (by rfl)).trans (h x)
    · rcases hchange x e with he | he <;> rw [he]
      · exact h y
      · exact (modify_of_eq Node.bare (by rfl)).trans (h y)
  · intro x hx
    refine rebuild_induction (P := (·.SmoothAt x)) (B := Smooth) .nil (fun _ f h => h.stack f)
      (fun h hb => h.setBranch hb.reverse) (fun y e h => ?_) hx
    rcases hchange y e with he | he <;> rw [he]
    · exact h
    · exact h.modify fun _ b hb => mem_singleton.mp hb ▸ .nil

theorem removeNodes_keeps (d : Document) (id : NodeId) (removed : List NodeId) :
    (∀ x, ((d.removeNodes id removed).node x).bare = (d.node x).bare) ∧
      ∀ x, d.SmoothAt x → (d.removeNodes id removed).SmoothAt x := by
  rw [removeNodes]
  split_ifs
  · exact ⟨fun _ => rfl, fun _ h => h⟩
  · exact rebuild_keeps (fun _ _ => .inl rfl) d d.size id

theorem UniqueOwner.encloses_removeNodes (hu : d.UniqueOwner id) (removed : List NodeId) :
    (d.removeNodes id removed).Encloses id x ↔
      d.Encloses id x ∧ ∀ a ∈ removed, d.Encloses id a → ¬ Reaches d.kids a x := by
  have h := hu.rebuilt_removeNodes removed
  have hkids : ∀ {p c}, Reaches d.kids id p → (c ∈ (d.removeNodes id removed).kids p ↔
      c ∈ d.kids p ∧ c ∉ removed) := by
    intro p c hp
    have hrecast := h.recast p hp (.inr (by split_ifs <;> simp))
    have hmem := (Spreads.flatten hrecast.spread).mem_iff (x := c) (by intro x; split_ifs <;> simp)
    simpa [nodes_flatten, kids] using hmem
  -- a removed node that leads to a child leads to its owner
  have hstep : ∀ {p c}, Reaches d.kids id p → c ∈ (d.removeNodes id removed).kids p →
      (∀ a ∈ removed, d.Encloses id a → ¬ Reaches d.kids a p) →
      c ∈ d.kids p ∧ ∀ a ∈ removed, d.Encloses id a → ¬ Reaches d.kids a c := by
    intro p c hp hc hnot
    obtain ⟨hc, hkept⟩ := (hkids hp).mp hc
    refine ⟨hc, fun a ha hia har => ?_⟩
    rcases Relation.ReflTransGen.cases_tail har with rfl | ⟨q, haq, hq⟩
    · exact hkept ha
    · have hq' := (reaches_of_enc hia).trans (Reaches.mono d.kids_sub haq)
      obtain rfl := hu.owner_eq (Reaches.mono d.kids_sub hp) hq' (d.kids_sub p hc)
        (d.kids_sub q hq)
      exact hnot a ha hia haq
  constructor
  · intro hx
    induction hx with
    | single hc =>
      obtain ⟨hc, hnot⟩ := hstep .refl hc fun a _ hia har => hu.not_encloses_top (hia.trans_left har)
      exact ⟨.single hc, hnot⟩
    | tail _ hc ih =>
      obtain ⟨hc, hnot⟩ := hstep ih.1.to_reflTransGen hc ih.2
      exact ⟨ih.1.tail hc, hnot⟩
  · rintro ⟨hx, hnot⟩
    induction hx with
    | single hc => exact .single ((hkids .refl).mpr ⟨hc, fun hmem => hnot _ hmem (.single hc) .refl⟩)
    | tail hp hc ih =>
      refine (ih fun a ha hia har => hnot a ha hia (har.tail hc)).tail ((hkids hp.to_reflTransGen).mpr ⟨hc, ?_⟩)
      exact fun hmem => hnot _ hmem (hp.tail hc) .refl

/-- **Dissolving and removing are exact.** Dissolving takes the nodes of a kind, and no text, out of the
outline of a node. Removing takes out the given nodes with what is below them. -/
theorem collapsing_and_removing_exact (hu : d.UniqueOwner id) (kind : Kind) (removed : List NodeId) :
    ((d.collapseKind id kind).outline id =
        (d.outline id).filter (fun f => f.node?.all fun x => ¬ d.kind x = kind) ∧
      (∀ x, (d.collapseKind id kind).Encloses id x ↔ d.Encloses id x ∧ d.kind x ≠ kind) ∧
      d.Tidied (d.collapseKind id kind) id) ∧
    (d.removeNodes id removed).outline id =
        d.told (fun x => if x ∈ removed then .removed else .kept) d.size id ∧
      (∀ x, (d.removeNodes id removed).Encloses id x ↔
        d.Encloses id x ∧ ∀ a ∈ removed, d.Encloses id a → ¬ Reaches d.kids a x) ∧
      d.Tidied (d.removeNodes id removed) id := by
  have hcollapse := hu.rebuilt_collapseKind kind
  have hremove := hu.rebuilt_removeNodes removed
  have hfilter : (d.collapseKind id kind).outline id =
      (d.outline id).filter fun f => f.node?.all fun x => ¬ d.kind x = kind := by
    rw [outline, hcollapse.size_eq, hcollapse.told_eq hu .refl (.inl rfl)]
    exact told_dissolved d (d.kind · = kind) d.size id
  have hkeep := @rebuild_keeps
    (fun n d => if d.kind n = kind then ((d.branches n).flatten, d.clear n) else ([.node n], d))
    (fun x e => by split_ifs <;> simp) d d.size id
  have htidied := hcollapse.tidied hu hkeep.1 hkeep.2
  refine ⟨⟨hfilter, fun x => ?_, htidied⟩, ?_, fun x => hu.encloses_removeNodes removed, ?_⟩
  · rw [← htidied.mem_outline, hfilter, mem_filter, outline, mem_told_iff hu.shallow_kids]
    simp [Item.node?]
  · rw [outline, hremove.size_eq, hremove.told_eq hu .refl (.inl rfl)]
  · exact hremove.tidied hu (removeNodes_keeps d id removed).1 (removeNodes_keeps d id removed).2

/-- A block in another one, each with text in front of it and behind it. -/
def nestedBlocks : Document :=
  let block (b : Branch) : Node := { kind := .block, place := Place.startOf "t", branches := [b, [.text "d"]] }
  ⟨#[{ kind := .root, place := Place.startOf "t", branches := [[.text "a", .node 1, .node 3]] },
    block [.text "b", .node 2], block [.text "c"],
    { kind := .content, place := Place.startOf "t", branches := [[.text "e"]] }]⟩

theorem collapsing_and_removing_exact_nestedBlocks : nestedBlocks.UniqueOwner root ∧
    (nestedBlocks.collapseKind root .block).outline root =
      ("abcdd".toList.map .char) ++ [.node 3, .char 'e'] ∧
    (nestedBlocks.removeNodes root [2]).outline root =
      [.char 'a', .node 1, .char 'b', .char 'd', .node 3, .char 'e'] := by
  have hu : nestedBlocks.UniqueOwner root := .of_slots (by decide) (by decide) (by decide) (by decide)
  obtain ⟨⟨hcollapse, -⟩, hremove, -⟩ := collapsing_and_removing_exact hu .block [2]
  exact ⟨hu, hcollapse.trans (by decide), hremove.trans (by decide)⟩

end Document

end Stencil
