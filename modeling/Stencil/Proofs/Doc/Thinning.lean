import Stencil.Proofs.Doc.Tending

/-!
# Fewer references

Many operations only take nodes out of slots, and put text in their place or nothing (`Thinned`). If
moreover each branch and each body keeps its place (`Pruned`), a branch that was read before such an
operation may be put back, without some of its nodes, after it (`Pruned.setBranch`).
-/

namespace Stencil

open List

variable {b : Branch}

namespace Document

variable {d d' d'' : Document} {L : List NodeId} {id x : NodeId} {i : Nat}
  {f : Node → Node}

/-- A document whose nodes refer to some of the nodes they referred to, and no others. -/
structure Thinned (d d' : Document) : Prop where
  size_eq : d'.size = d.size
  refs_sublist : ∀ y, (d'.refs y).Sublist (d.refs y)

namespace Thinned

theorem refl (d : Document) : d.Thinned d := ⟨rfl, fun _ => .refl _⟩

theorem trans (h : d.Thinned d') (h' : d'.Thinned d'') : d.Thinned d'' :=
  ⟨h'.size_eq.trans h.size_eq, fun y => (h'.refs_sublist y).trans (h.refs_sublist y)⟩

theorem modify (h : ((f (d.node x)).references).Sublist (d.node x).references) :
    d.Thinned (d.modify x f) := by
  refine ⟨size_modify d x f, fun y => ?_⟩
  rcases node_modify_cases d x f y with heq | ⟨-, rfl, heq⟩ <;> rw [refs, heq]
  · exact .refl _
  · exact h

theorem foldl {α : Type} {g : Document → α → Document} {l : List α}
    (h : ∀ d : Document, ∀ a ∈ l, d.Thinned (g d a)) : d.Thinned (l.foldl g d) :=
  List.foldlRecOn (motive := d.Thinned) l g (.refl d) fun e he a ha => he.trans (h e a ha)

theorem setKind (d : Document) (x : NodeId) (kind : Kind) : d.Thinned (d.setKind x kind) :=
  .modify (.refl _)

theorem setChildren (d : Document) (x : NodeId) (hb : b.nodes = []) :
    d.Thinned (d.setChildren x b) := by
  refine .modify ?_
  rw [Node.references, Node.references]
  refine List.Sublist.append_right (List.Sublist.append_left ?_ _) _
  rw [flatMap_singleton, hb]
  exact nil_sublist _

theorem modifyNaming (d : Document) (x : NodeId) (g : Naming → Naming) :
    d.Thinned (d.modifyNaming x g) := by
  refine .modify ?_
  simp only [Node.references, Node.body, Node.body?, Option.getD_none, Branch.nodes_nil,
    map_nil, nil_append, Option.toList_none, append_nil]
  exact (sublist_append_right _ _).trans (sublist_append_left _ _)

theorem setBranch_zero (h : b.nodes.Sublist (d.branch x 0).nodes) : d.Thinned (d.setBranch x 0 b) := by
  refine .modify ?_
  rw [Node.setBranch_zero, Node.references, Node.references]
  refine List.Sublist.append_right (List.Sublist.append_left ?_ _) _
  rw [branch, Node.branch_zero, Node.children] at h
  cases hbs : (d.node x).branches with
  | nil =>
    rw [hbs] at h
    simpa using h
  | cons b' bs =>
    rw [hbs] at h
    exact h.append (.refl _)

theorem sustained (h : d.Thinned d') (hg : d.Grove L) : d.Sustained d' L := by
  have hslots : d'.slots.Sublist d.slots := by
    rw [slots, slots, h.size_eq]
    exact List.Sublist.flatMap_right _ fun y _ => h.refs_sublist y
  refine ⟨⟨?_, fun y hy => ?_, fun y => ?_⟩, h.size_eq.ge⟩
  · exact hg.nodup.sublist (hslots.append_right L)
  · rw [h.size_eq]
    exact hg.lt_size y ((hslots.append_right L).subset hy)
  · obtain ⟨n, hn⟩ := hg.grounded y
    exact ⟨n, hn.of_subset fun z _ => (h.refs_sublist z).subset⟩

end Thinned

/-- Each branch of each node holds some of the nodes that it held, and bodies are as before. -/
structure Pruned (d d' : Document) : Prop where
  size_eq : d'.size = d.size
  payload_eq : ∀ y, (d'.node y).payload = (d.node y).payload
  length_eq : ∀ y, (d'.branches y).length = (d.branches y).length
  nodes_sublist : ∀ y i, (d'.branch y i).nodes.Sublist (d.branch y i).nodes

theorem flatMap_nodes_sublist {bs bs' : List Branch} (hlen : bs'.length = bs.length)
    (h : ∀ i, (Branch.nodes (bs'.getD i [])).Sublist (Branch.nodes (bs.getD i []))) :
    (bs'.flatMap Branch.nodes).Sublist (bs.flatMap Branch.nodes) := by
  induction bs generalizing bs' with
  | nil => rw [length_eq_zero_iff.mp hlen]
  | cons b bs ih =>
    cases bs' with
    | nil => exact nil_sublist _
    | cons b' bs' =>
      exact (h 0).append (ih (Nat.succ_injective hlen) fun i => h (i + 1))

namespace Pruned

theorem refl (d : Document) : d.Pruned d :=
  ⟨rfl, fun _ => rfl, fun _ => rfl, fun _ _ => .refl _⟩

theorem trans (h : d.Pruned d') (h' : d'.Pruned d'') : d.Pruned d'' where
  size_eq := h'.size_eq.trans h.size_eq
  payload_eq y := (h'.payload_eq y).trans (h.payload_eq y)
  length_eq y := (h'.length_eq y).trans (h.length_eq y)
  nodes_sublist y i := (h'.nodes_sublist y i).trans (h.nodes_sublist y i)

theorem thinned (h : d.Pruned d') : d.Thinned d' := by
  refine ⟨h.size_eq, fun y => ?_⟩
  have hbody : (d'.node y).body = (d.node y).body := by
    rw [Node.body, Node.body, Node.body?, Node.body?, h.payload_eq]
  rw [refs, refs, Node.references, Node.references, hbody]
  refine List.Sublist.append_right (List.Sublist.append_left ?_ _) _
  exact flatMap_nodes_sublist (h.length_eq y) (h.nodes_sublist y)

theorem setBranch (h : d.Pruned d') (hi : i < (d.branches id).length)
    (hb : b.nodes.Sublist (d.branch id i).nodes) : d.Pruned (d'.setBranch id i b) := by
  by_cases hlt : id < d'.size
  · refine ⟨(size_modify _ _ _).trans h.size_eq, fun y => ?_, fun y => ?_, fun y j => ?_⟩
    · rw [Document.setBranch, modify_of_eq Node.payload rfl]
      exact h.payload_eq y
    · by_cases hy : y = id
      · subst hy
        rw [branches, Document.setBranch, modify_self hlt, Node.length_setBranch, ← branches,
          h.length_eq, Nat.max_eq_left hi]
      · rw [branches, Document.setBranch, modify_ne hy]
        exact h.length_eq y
    · by_cases hy : y = id
      · subst hy
        rw [branch, Document.setBranch, modify_self hlt, Node.branch_setBranch]
        split_ifs with hj
        · rw [hj]
          exact hb
        · exact h.nodes_sublist y j
      · rw [branch, Document.setBranch, modify_ne hy]
        exact h.nodes_sublist y j
  · rw [Document.setBranch, modify_of_le (not_lt.mp hlt)]
    exact h

end Pruned

end Document

end Stencil
