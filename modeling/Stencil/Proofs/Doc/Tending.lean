import Stencil.Proofs.Doc.Retelling

/-!
# Trees that are worked on

An operation that works on some trees of a document leaves other trees, and leaves alone the trees that
others hold. `Tended d d' B L` says that it has left the trees below the nodes of `B`.

Every node is in some tree (`Grove.inside`), so in the end only the trees that are held matter:
`Sustained d d' L`.
-/

namespace Stencil

open List

namespace Document

variable {d d' d'' : Document} {b : Branch} {B C L L' : List NodeId} {id top x : NodeId} {i : Nat}
  {f : Node → Node}

/-- An operation has left the trees below the nodes of `B`, and has not touched those below the
nodes of `L`. -/
structure Tended (d d' : Document) (B L : List NodeId) : Prop where
  grove : d'.Grove (B ++ L)
  frame : d.Frame d' L

namespace Tended

theorem refl (h : d.Grove (B ++ L)) : Tended d d B L := ⟨h, .refl _ _⟩

theorem after (h' : Tended d' d'' B L) (h : d.Frame d' L) : Tended d d'' B L :=
  ⟨h'.grove, h.trans h'.frame⟩

theorem trans (h : Tended d d' B L) (h' : Tended d' d'' C L) : Tended d d'' C L :=
  h'.after h.frame

theorem perm (h : Tended d d' B L) (hp : B.Perm C) : Tended d d' C L :=
  ⟨h.grove.perm (hp.append_right L), h.frame⟩

theorem sublist (h : Tended d d' B L) (hs : C.Sublist B) : Tended d d' C L :=
  ⟨h.grove.sublist (hs.append_right L), h.frame⟩

theorem release (h : Tended d d' B (C ++ L)) : Tended d d' (B ++ C) L :=
  ⟨by rw [append_assoc]; exact h.grove, h.frame.mono (subset_append_right _ _)⟩

end Tended

theorem reaches_modify : Reaches (d.modify x f).refs top x ↔ Reaches d.refs top x := by
  constructor
  · intro h
    induction h using Relation.ReflTransGen.head_induction_on with
    | refl => exact .refl
    | @head y c hc _ ih =>
      by_cases hy : y = x
      · rw [hy]
      · exact .head (by rwa [refs_modify_ne hy] at hc) ih
  · intro h
    induction h using Relation.ReflTransGen.head_induction_on with
    | refl => exact .refl
    | @head y c hc _ ih =>
      by_cases hy : y = x
      · rw [hy]
      · exact .head (by rwa [refs_modify_ne hy]) ih

theorem Grove.not_reaches_inside (h : d.Grove (top :: L)) (hr : Reaches d.refs top x) {y : NodeId}
    (hy : y ∈ L) : ¬ Reaches d.refs y x := by
  refine h.apart mem_cons_self (mem_cons_of_mem _ hy) ?_ hr
  rintro rfl
  exact (nodup_cons.mp h.nodup.of_append_right).1 hy

theorem Grove.lt_of_top (h : d.Grove (top :: L)) (hr : Reaches d.refs top x) : x < d.size :=
  h.lt_of_reaches h.lt_head hr

theorem Grove.tended_modify (h : d.Grove (B ++ (top :: L))) (hr : Reaches d.refs top x)
    (hperm : ((f (d.node x)).references ++ C).Perm ((d.node x).references ++ B)) :
    Tended d (d.modify x f) (C ++ [top]) L := by
  have hmid : d.Grove (top :: (B ++ L)) := h.perm perm_middle
  refine ⟨?_, .modify fun y hy => hmid.not_reaches_inside hr (mem_append_right _ hy)⟩
  rw [append_assoc]
  exact h.modify (hmid.lt_of_top hr) hperm fun a ha =>
    hmid.not_reaches_inside hr (mem_append_left _ ha)

theorem Grove.tended_takeBranch (h : d.Grove (top :: L)) (hr : Reaches d.refs top id) (i : Nat) :
    Tended d (d.setBranch id i []) ((d.branch id i).nodes ++ [top]) L :=
  tended_modify (B := []) h hr ((d.node id).refs_setBranch i [])

theorem Grove.tended_putBranch (h : d.Grove (b.nodes ++ (top :: L))) (hr : Reaches d.refs top id)
    (hemp : d.branch id i = []) : Tended d (d.setBranch id i b) [top] L := by
  have hp := (d.node id).refs_setBranch i b
  rw [branch] at hemp
  rw [hemp] at hp
  exact tended_modify (C := []) h hr hp

theorem Grove.tended_clear (h : d.Grove (x :: L)) : Tended d (d.clear x) (d.kids x) L := by
  have hg : (d.clear x).Grove (d.kids x ++ (x :: L)) := by
    refine Grove.modify (A := []) h h.lt_head ?_
      fun _ ha => absurd ha not_mem_nil
    rw [perm_iff_count]
    intro e
    simp only [Node.references, kids, branches, count_append, flatMap_cons,
      flatMap_nil, Branch.nodes_nil, append_nil]
    have hbody : ({ d.node x with branches := [[]] } : Node).body = (d.node x).body := rfl
    rw [hbody]
    omega
  exact ⟨hg.sublist ((sublist_cons_self _ _).append_left _),
    .modify fun y hy => h.not_reaches_head hy⟩

theorem branch_setBranch_self (hlt : id < d.size) (hi : i < (d.branches id).length) :
    (d.setBranch id i b).branch id i = b := by
  have hi' : i < ((d.setBranch id i b).branches id).length := by
    rw [branches, node_setBranch hlt hi, length_set]
    exact hi
  rw [branch_getElem hi']
  simp only [branches, node_setBranch hlt hi, getElem_set_self]

theorem length_setBranches (hlt : id < d.size) (hi : i < (d.branches id).length) :
    ((d.setBranch id i b).branches id).length = (d.branches id).length := by
  rw [branches, node_setBranch hlt hi, length_set]

theorem Grove.tended_branch {b' : Branch} {d1 : Document} (h : d.Grove (top :: L))
    (hr : Reaches d.refs top id) (hi : i < (d.branches id).length)
    (hb : Tended (d.setBranch id i []) d1 (b'.nodes ++ C) (top :: L)) :
    Tended d (d1.setBranch id i b') (top :: C) L ∧
      ((d1.setBranch id i b').branches id).length = (d.branches id).length ∧
      Reaches (d1.setBranch id i b').refs top id := by
  have hlt : id < d.size := h.lt_of_top hr
  have hr0 : Reaches (d.setBranch id i []).refs top id := reaches_modify.mpr hr
  have hnode : d1.node id = (d.setBranch id i []).node id :=
    hb.frame.node_eq top mem_cons_self id hr0
  have hr1 : Reaches d1.refs top id := hb.frame.reaches mem_cons_self hr0
  have hlt1 : id < d1.size := lt_of_lt_of_le (by rwa [setBranch, size_modify]) hb.frame.size_le
  have hlen : (d1.branches id).length = (d.branches id).length := by
    rw [branches, hnode]
    exact length_setBranches hlt hi
  have hi1 : i < (d1.branches id).length := hlen ▸ hi
  have hemp : d1.branch id i = [] := by
    rw [branch, hnode]
    exact branch_setBranch_self hlt hi
  have hg1 : d1.Grove (b'.nodes ++ (top :: (C ++ L))) := by
    refine hb.grove.perm ?_
    rw [append_assoc]
    exact perm_middle.append_left _
  have htake := h.tended_takeBranch hr i
  have hput := hg1.tended_putBranch hr1 hemp
  refine ⟨⟨hput.grove, htake.frame.trans ((hb.frame.mono ?_).trans (hput.frame.mono ?_))⟩, ?_, ?_⟩
  · exact subset_cons_self _ _
  · exact subset_append_right _ _
  · rw [length_setBranches hlt1 hi1, hlen]
  · exact reaches_modify.mpr hr1

theorem Grove.tended_mapBranches {f : Branch → Edit Branch} {I : Document → Prop}
    (h : d.Grove (top :: L)) (hr : Reaches d.refs top id) (hI : I d)
    (hset : ∀ d i b, I d → i < (d.branches id).length → I (d.setBranch id i b))
    (hf : ∀ d b b' d' L, I d → d.Grove (b.nodes ++ L) → f b d = .ok b' d' →
      I d' ∧ Tended d d' b'.nodes L)
    (hmap : Edit.mapBranches id f d = .ok () d') : I d' ∧ Tended d d' [top] L := by
  suffices hP : I d' ∧ Tended d d' [top] L ∧ (d'.branches id).length = (d.branches id).length ∧
      Reaches d'.refs top id from ⟨hP.1, hP.2.1⟩
  refine mapBranches_ind (P := fun _ d' => I d' ∧ Tended d d' [top] L ∧
    (d'.branches id).length = (d.branches id).length ∧ Reaches d'.refs top id) hmap
    ⟨hI, .refl h, rfl, hr⟩ ?_
  rintro i hi d1 b d2 ⟨hI1, ht1, hlen, hr1⟩ hok
  have hi1 : i < (d1.branches id).length := hlen ▸ hi
  have hg1 := (ht1.grove.tended_takeBranch hr1 i).grove
  rw [append_assoc] at hg1
  obtain ⟨hI2, ht2⟩ := hf _ _ _ _ _ (hset _ _ _ hI1 hi1) hg1 hok
  obtain ⟨hback, hlen2, hr2⟩ := ht1.grove.tended_branch (C := []) hr1 hi1
    (by rw [append_nil]; exact ht2)
  refine ⟨hset _ _ _ hI2 ?_, ht1.trans hback, hlen2.trans hlen, hr2⟩
  have hlt : id < d1.size := ht1.grove.lt_of_top hr1
  rw [branches, ht2.frame.node_eq top mem_cons_self id (reaches_modify.mpr hr1)]
  exact (length_setBranches hlt hi1).symm ▸ hi1

/-- Work has left trees below the nodes of `L`. -/
structure Sustained (d d' : Document) (L : List NodeId) : Prop where
  grove : d'.Grove L
  size_le : d.size ≤ d'.size

theorem Sustained.refl (h : d.Grove L) : d.Sustained d L := ⟨h, le_refl _⟩

theorem Sustained.trans (h : d.Sustained d' L) (h' : d'.Sustained d'' L') : d.Sustained d'' L' :=
  ⟨h'.grove, le_trans h.size_le h'.size_le⟩

theorem Tended.sustained (h : Tended d d' B L) : d.Sustained d' (B ++ L) :=
  ⟨h.grove, h.frame.size_le⟩

theorem Grove.subperm (h : d.Grove L) (hs : L'.Subperm L) : d.Grove L' := by
  obtain ⟨M, hp, hs⟩ := hs
  exact (h.sublist hs).perm hp

theorem Grove.exists_reaches_not_mem_slots (h : d.Grove L) (hx : x < d.size) :
    ∃ top < d.size, Reaches d.refs top x ∧ top ∉ d.slots := by
  -- a way up that never ends would be a way down that is too long
  have key : ∀ n, (∃ top < d.size, Reaches d.refs top x ∧ top ∉ d.slots) ∨
      ∃ y < d.size, Reaches d.refs y x ∧ ¬ Shallow d.refs n y := by
    intro n
    induction n with
    | zero => exact .inr ⟨x, hx, .refl, id⟩
    | succ n ih =>
      rcases ih with htop | ⟨y, hy, hr, hdeep⟩
      · exact .inl htop
      · by_cases hslot : y ∈ d.slots
        · obtain ⟨p, hp⟩ := mem_slots.mp hslot
          exact .inr ⟨p, lt_of_ref hp, .head hp hr, fun hs => hdeep (hs y hp)⟩
        · exact .inl ⟨y, hy, hr, hslot⟩
  rcases key d.size with htop | ⟨y, hy, -, hdeep⟩
  · exact htop
  · exact absurd (h.shallow hy) hdeep

theorem Grove.exists_top (h : d.Grove L) (hx : x < d.size) :
    ∃ top M, d.Grove (top :: M) ∧ Reaches d.refs top x ∧ L.Subperm (top :: M) := by
  obtain ⟨top, hlt, hr, hslot⟩ := h.exists_reaches_not_mem_slots hx
  by_cases hmem : top ∈ L
  · exact ⟨top, L.erase top, h.perm (perm_cons_erase hmem), hr,
      (perm_cons_erase hmem).subperm⟩
  · refine ⟨top, L, ⟨?_, fun y hy => ?_, h.grounded⟩, hr, (sublist_cons_self _ _).subperm⟩
    · refine perm_middle.nodup_iff.mpr (nodup_cons.mpr ⟨fun hy => ?_, h.nodup⟩)
      exact (mem_append.mp hy).elim hslot hmem
    · rcases mem_cons.mp (perm_middle.mem_iff.mp hy) with rfl | hy
      · exact hlt
      · exact h.lt_size y hy

theorem Grove.inside (h : d.Grove L) (hx : x < d.size)
    (hwork : ∀ {top M}, d.Grove (top :: M) → Reaches d.refs top x → d.Sustained d' (top :: M)) :
    d.Sustained d' L := by
  obtain ⟨top, M, hg, hr, hsub⟩ := h.exists_top hx
  obtain ⟨hg', hle⟩ := hwork hg hr
  exact ⟨hg'.subperm hsub, hle⟩

end Document

end Stencil
