import Stencil.Proofs.Doc.Grove
import Stencil.Proofs.Outcome

/-!
# Rebuilding what is written alike

Some operations take the branches of a node out, one after the other, and put back what they make of
each. If what is put back is written as what was taken out (`Retells`), then so is the node (`Retold`),
whatever the operation did to the nodes in the branch.
-/

namespace Stencil

open List

variable {f : Branch → Edit Branch} {P : Nat → Document → Prop}

/-- A manner that looks at the branches of a node through what is written for them. -/
def Manner.Textual (m : Manner) : Prop :=
  ∀ {d d' : Document} {w w' : NodeId → String} {id : NodeId}, d.kind id = d'.kind id →
    (d.node id).payload = (d'.node id).payload → (d'.node id).naming? = none →
    (d.branches id).map (Document.writeBranch w) = (d'.branches id).map (Document.writeBranch w') →
    (∀ c ∈ (d'.node id).body.references, w c = w' c) → m d w id = m d' w' id

theorem Manner.textual_source : Manner.Textual Manner.source :=
  fun _ _ _ _ _ => rfl

namespace Document

variable {m : Manner} {d d1 d' d'' : Document} {b b' : Branch} {L : List NodeId} {id x : NodeId}
  {i n : Nat}

/-- A branch has been rebuilt: its nodes and those of the new one are loose. -/
structure Retells (m : Manner) (d d' : Document) (b b' : Branch) (L : List NodeId) : Prop where
  grove : d'.Grove (b'.nodes ++ L)
  plain : d'.Plain
  frame : d.Frame d' L
  write_eq : writeBranch (d'.render m) b' = writeBranch (d.render m) b

/-- What is below a loose node has been rebuilt. -/
structure Retold (m : Manner) (d d' : Document) (id : NodeId) (L : List NodeId) : Prop where
  grove : d'.Grove (id :: L)
  plain : d'.Plain
  frame : d.Frame d' L
  render_eq : d'.render m id = d.render m id

theorem Retold.refl (m : Manner) (h : d.Grove (id :: L)) (hp : d.Plain) : Retold m d d id L :=
  ⟨h, hp, .refl _ _, rfl⟩

theorem Retold.trans (h : Retold m d d' id L) (h' : Retold m d' d'' id L) : Retold m d d'' id L :=
  ⟨h'.grove, h'.plain, h.frame.trans h'.frame, h'.render_eq.trans h.render_eq⟩

theorem branch_getElem (hi : i < (d.branches id).length) : d.branch id i = (d.branches id)[i] :=
  getD_eq_getElem _ _ hi

theorem lt_of_mem_branch (h : x ∈ (d.branch id i).nodes) : i < (d.branches id).length := by
  by_contra hi
  have hemp : d.branch id i = [] := getD_eq_default _ _ (not_lt.mp hi)
  rw [hemp] at h
  cases h

theorem branch_mem (hi : i < (d.branches id).length) : d.branch id i ∈ d.branches id :=
  branch_getElem hi ▸ getElem_mem hi

theorem refs_of_mem (h : x ∈ (d.branch id i).nodes) : x ∈ d.refs id :=
  refs_of_branch (branch_mem (lt_of_mem_branch h)) h

theorem node_setBranch (hlt : id < d.size) (hi : i < (d.branches id).length) :
    (d.setBranch id i b).node id = { d.node id with branches := (d.branches id).set i b } := by
  rw [setBranch, modify_self hlt, Node.setBranch, Node.grow]
  have hzero : i + 1 - (d.node id).branches.length = 0 := Nat.sub_eq_zero_of_le hi
  rw [hzero, replicate_zero, append_nil]
  rfl

theorem Grove.takeBranch (h : d.Grove (id :: L)) (i : Nat) :
    (d.setBranch id i []).Grove ((d.branch id i).nodes ++ (id :: L)) ∧
      d.Frame (d.setBranch id i []) ((d.branch id i).nodes ++ L) := by
  have hlt : id < d.size := h.lt_head
  refine ⟨Grove.modify (A := []) h hlt ?_ (fun _ ha => absurd ha not_mem_nil),
    .modify fun y hy => ?_⟩
  · exact (d.node id).refs_setBranch i []
  · rcases mem_append.mp hy with hy | hy
    · exact h.not_reaches_mem (refs_of_mem hy)
    · exact h.not_reaches_head hy

theorem Grove.putBranch (h : d.Grove (b.nodes ++ (id :: L))) (hemp : d.branch id i = []) :
    (d.setBranch id i b).Grove (id :: L) ∧ d.Frame (d.setBranch id i b) (b.nodes ++ L) := by
  have hmid : d.Grove (id :: (b.nodes ++ L)) := h.perm perm_middle
  have hlt : id < d.size := hmid.lt_head
  refine ⟨Grove.modify (B := []) h hlt ?_ fun a ha =>
    hmid.not_reaches_head (mem_append_left _ ha), .modify fun y hy => hmid.not_reaches_head hy⟩
  have hp := (d.node id).refs_setBranch i b
  rw [branch] at hemp
  rwa [hemp] at hp

theorem Plain.setBranch (h : d.Plain) : (d.setBranch id i b).Plain := fun x => by
  rw [Document.setBranch, modify_of_eq Node.naming? rfl]
  exact h x

theorem Grove.frame_rest (h : d.Grove (id :: L))
    (hd1 : (d.setBranch id i []).Frame d1 (id :: L)) (hg1 : d1.Grove (b'.nodes ++ (id :: L))) :
    d.Frame (d1.setBranch id i b') ((d.setBranch id i []).refs id) := by
  have hlt : id < d.size := h.lt_head
  have hsub : (d.setBranch id i []).refs id ⊆ d.refs id := fun c hc => by
    rw [setBranch, refs_modify_self hlt] at hc
    have hp := ((d.node id).refs_setBranch i []).mem_iff.mp (mem_append_left _ hc)
    simpa [refs] using hp
  have hrefs : d1.refs id = (d.setBranch id i []).refs id := hd1.refs_eq mem_cons_self .refl
  have h0 : d.Frame (d.setBranch id i []) ((d.setBranch id i []).refs id) :=
    .modify fun y hy => h.not_reaches_mem (hsub hy)
  have h1 : (d.setBranch id i []).Frame d1 ((d.setBranch id i []).refs id) :=
    ⟨hd1.size_le, fun y hy x hr =>
      hd1.node_eq id mem_cons_self x ((Reaches.child hy).trans hr)⟩
  have h2 : d1.Frame (d1.setBranch id i b') ((d.setBranch id i []).refs id) :=
    .modify fun y hy => hg1.not_reaches_mem (hrefs ▸ hy)
  exact h0.trans (h1.trans h2)

section

variable (hm : Manner.Local m) (h : d.Grove L) (hp : d.Plain) (hlt : id < d.size)
  (hi : i < (d.branches id).length)
include hm h hp hlt hi

theorem body_eq_of_branch (hrest : d.Frame d' ((d.setBranch id i []).refs id)) {c : NodeId}
    (hc : c ∈ (d.node id).body.references) : d'.render m c = d.render m c := by
  refine hrest.render_eq hm h hp ?_ (h.lt_of_refs ((d.node id).body_refs_sub hc)) .refl
  rw [refs, node_setBranch hlt hi]
  exact Node.body_refs_sub _ hc

theorem texts_eq_of_branch
    (hnode : d'.node id = { d.node id with branches := (d.branches id).set i b' })
    (hwrite : writeBranch (d'.render m) b' = writeBranch (d.render m) (d.branch id i))
    (hrest : d.Frame d' ((d.setBranch id i []).refs id)) :
    (d'.branches id).map (writeBranch (d'.render m)) =
      (d.branches id).map (writeBranch (d.render m)) := by
  rw [branches, hnode]
  refine ext_getElem (by simp) fun j hj hj' => ?_
  simp only [getElem_map, getElem_set]
  split_ifs with hij
  · subst hij
    rw [hwrite, branch_getElem hi]
  · have hj : j < (d.branches id).length := by simpa using hj'
    refine branch_congr fun c hc => hrest.render_eq hm h hp (refs_of_branch ?_ hc)
      (h.lt_of_refs (refs_of_branch (getElem_mem hj) hc)) .refl
    rw [branches, node_setBranch hlt hi]
    exact mem_iff_getElem.mpr ⟨j, by simpa using hj, by simp [hij]⟩

end

theorem render_eq_of_branch (hm : Manner.Local m) (ht : Manner.Textual m) (h : d.Grove L)
    (hp : d.Plain) (h' : d'.Grove L) (hp' : d'.Plain) (hlt : id < d.size)
    (hi : i < (d.branches id).length)
    (hnode : d'.node id = { d.node id with branches := (d.branches id).set i b' })
    (hwrite : writeBranch (d'.render m) b' = writeBranch (d.render m) (d.branch id i))
    (hrest : d.Frame d' ((d.setBranch id i []).refs id)) : d'.render m id = d.render m id := by
  have hbody : ∀ c ∈ (d.node id).body.references, d'.render m c = d.render m c := fun c hc =>
    body_eq_of_branch hm h hp hlt hi hrest hc
  have hbranches := texts_eq_of_branch hm h hp hlt hi hnode hwrite hrest
  have hkind : d'.kind id = d.kind id := by rw [kind, hnode]; rfl
  have hpayload : (d'.node id).payload = (d.node id).payload := by rw [hnode]
  rw [h'.render_eq hm hp' (lt_of_lt_of_le hlt hrest.size_le), h.render_eq hm hp hlt,
    ht hkind hpayload (hp id) hbranches hbody, writeDefault_eq hkind hpayload (hp id) hbranches hbody]

/-- A branch is taken out of a loose node, rebuilt and put back. -/
structure PutBack (m : Manner) (d d' : Document) (id : NodeId) (i : Nat) (b' : Branch)
    (L : List NodeId) : Prop extends Retold m d d' id L where
  node_eq : d'.node id = { d.node id with branches := (d.branches id).set i b' }
  frame_rest : d.Frame d' ((d.setBranch id i []).refs id)
  texts_eq : (d'.branches id).map (writeBranch (d'.render m)) =
    (d.branches id).map (writeBranch (d.render m))
  body_eq : ∀ c ∈ (d.node id).body.references, d'.render m c = d.render m c

theorem Retells.putBack (hm : Manner.Local m) (ht : Manner.Textual m) (h : d.Grove (id :: L))
    (hp : d.Plain) (hi : i < (d.branches id).length)
    (hr : Retells m (d.setBranch id i []) d1 (d.branch id i) b' (id :: L)) :
    PutBack m d (d1.setBranch id i b') id i b' L := by
  have hlt : id < d.size := h.lt_head
  have hnode1 : d1.node id = { d.node id with branches := (d.branches id).set i [] } := by
    rw [hr.frame.node_head, node_setBranch hlt hi]
  have hlt1 : id < d1.size := lt_of_lt_of_le (by rw [setBranch, size_modify]; exact hlt)
    hr.frame.size_le
  have hi1 : i < (d1.branches id).length := by
    rw [branches, hnode1, length_set]
    exact hi
  have hemp : d1.branch id i = [] := by
    rw [branch_getElem hi1]
    simp only [branches, hnode1, getElem_set_self]
  obtain ⟨-, hf0⟩ := h.takeBranch i
  obtain ⟨hg2, hf2⟩ := hr.grove.putBranch hemp
  have hrest := h.frame_rest hr.frame hr.grove
  have hnode : (d1.setBranch id i b').node id =
      { d.node id with branches := (d.branches id).set i b' } := by
    rw [node_setBranch hlt1 hi1, branches, hnode1, set_set]
  have hp2 : (d1.setBranch id i b').Plain := hr.plain.setBranch
  have hframe : d.Frame (d1.setBranch id i b') L :=
    (hf0.mono (subset_append_right _ _)).trans
      ((hr.frame.mono (subset_cons_self _ _)).trans
        (hf2.mono (subset_append_right _ _)))
  have hwrite : writeBranch ((d1.setBranch id i b').render m) b' =
      writeBranch (d.render m) (d.branch id i) := calc
    _ = writeBranch (d1.render m) b' :=
      branch_congr fun c hc => hf2.render_eq hm hr.grove hr.plain (mem_append_left _ hc)
        (hr.grove.lt_of_mem (mem_append_left _ hc)) .refl
    _ = writeBranch ((d.setBranch id i []).render m) (d.branch id i) := hr.write_eq
    _ = writeBranch (d.render m) (d.branch id i) :=
      branch_congr fun c hc => hf0.render_eq hm h hp (mem_append_left _ hc)
        (h.lt_of_refs (refs_of_mem hc)) .refl
  exact ⟨⟨hg2, hp2, hframe, render_eq_of_branch hm ht h hp hg2 hp2 hlt hi hnode hwrite hrest⟩,
    hnode, hrest, texts_eq_of_branch hm h hp hlt hi hnode hwrite hrest,
    fun c hc => body_eq_of_branch hm h hp hlt hi hrest hc⟩

theorem mapBranches_yields {E : Error → Document → Prop}
    (hzero : P 0 d) (hstep : ∀ i < (d.branches id).length, ∀ d, P i d →
      Yields (f (d.branch id i)) (d.setBranch id i []) (fun b d' => P (i + 1) (d'.setBranch id i b)) E) :
    Yields (Edit.mapBranches id f) d (fun _ => P (d.branches id).length) E := by
  refine .bind_ok rfl (.forM_range hzero fun i hi d1 hP => .bind_ok (a := d1.branch id i) rfl ?_)
  exact (hstep i hi d1 hP).bind fun b d2 hP2 =>
    ⟨fun _ d3 hok => by cases hok; exact hP2, fun e d' he => by cases he⟩

theorem mapBranches_ind (h : Edit.mapBranches id f d = .ok () d') (hzero : P 0 d)
    (hstep : ∀ i < (d.branches id).length, ∀ d b d', P i d →
      f (d.branch id i) (d.setBranch id i []) = .ok b d' → P (i + 1) (d'.setBranch id i b)) :
    P (d.branches id).length d' :=
  (mapBranches_yields (E := fun _ _ => True) hzero fun i hi d hP =>
    ⟨fun b d' hok => hstep i hi d b d' hP hok, fun _ _ _ => trivial⟩).ok () d' h

theorem mapBranches_retold {I : Document → Prop}
    (hm : Manner.Local m) (ht : Manner.Textual m) (h : d.Grove (id :: L)) (hp : d.Plain) (hI : I d)
    (hs : Shallow d.refs (n + 1) id)
    (hset : ∀ d i b, I d → i < (d.branches id).length → I (d.setBranch id i b))
    (hf : ∀ d b b' d' L, I d → d.Grove (b.nodes ++ L) → d.Plain →
      (∀ c ∈ b.nodes, Shallow d.refs n c) → f b d = .ok b' d' → I d' ∧ Retells m d d' b b' L)
    (hmap : Edit.mapBranches id f d = .ok () d') : I d' ∧ Retold m d d' id L := by
  -- the branches that are left are as deep as at the start
  suffices hP : I d' ∧ Retold m d d' id L ∧ (d'.branches id).length = (d.branches id).length ∧
      ∀ j ≥ (d.branches id).length, ∀ c ∈ (d'.branch id j).nodes, Shallow d'.refs n c from
    ⟨hP.1, hP.2.1⟩
  refine mapBranches_ind (P := fun i d' => I d' ∧ Retold m d d' id L ∧
    (d'.branches id).length = (d.branches id).length ∧
      ∀ j ≥ i, ∀ c ∈ (d'.branch id j).nodes, Shallow d'.refs n c) hmap ?_ ?_
  · exact ⟨hI, .refl m h hp, rfl, fun j _ c hc => hs c (refs_of_mem hc)⟩
  · rintro i hi d1 b d2 ⟨hI1, hr1, hlen, hshallow⟩ hok
    have hi1 : i < (d1.branches id).length := hlen ▸ hi
    have hlt1 : id < d1.size := hr1.grove.lt_head
    obtain ⟨hg0, hf0⟩ := hr1.grove.takeBranch i
    have hdepth : ∀ c ∈ (d1.branch id i).nodes, Shallow (d1.setBranch id i []).refs n c :=
      fun c hc => (hshallow i (le_refl i) c hc).of_subset fun x hx => by
        rw [hf0.refs_eq (mem_append_left _ hc) hx]
        exact List.Subset.refl _
    obtain ⟨hI2, hr2⟩ := hf _ _ _ _ _ (hset _ _ _ hI1 hi1) hg0 hr1.plain.setBranch hdepth hok
    have hback := hr2.putBack hm ht hr1.grove hr1.plain hi1
    have hlen2 : (d2.branches id).length = (d1.branches id).length := by
      rw [branches, hr2.frame.node_head, node_setBranch hlt1 hi1, length_set]
    refine ⟨hset _ _ _ hI2 (hlen2 ▸ hi1), hr1.trans hback.toRetold, ?_, fun j hj c hc => ?_⟩
    · rw [branches, hback.node_eq, length_set]
      exact hlen
    · have hij : i ≠ j := ne_of_lt hj
      have hbranch : (d2.setBranch id i b).branch id j = d1.branch id j := by
        simp only [branch, Node.branch, hback.node_eq, getD_eq_getElem?_getD, List.getElem?_set_ne hij]
        rfl
      rw [hbranch] at hc
      have hmem : c ∈ (d1.setBranch id i []).refs id := by
        have hj : j < (d1.branches id).length := lt_of_mem_branch hc
        refine refs_of_branch (b := d1.branch id j) ?_ hc
        rw [branches, node_setBranch hlt1 hi1, branch_getElem hj]
        exact mem_iff_getElem.mpr ⟨j, by simpa using hj, by simp [hij]⟩
      refine (hshallow j (le_of_lt hj) c hc).of_subset fun x hx => ?_
      rw [hback.frame_rest.refs_eq hmem hx]
      exact List.Subset.refl _

end Document

end Stencil
