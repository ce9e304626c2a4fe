import Stencil.Proofs.Blocks.Nesting
import Stencil.Proofs.Doc.Tending

/-!
# Nesting keeps trees apart

While a branch is nested, the nodes of the open blocks are held, with what was put into them and is in
no slot yet (`Holding`). So **a document stays a collection of trees when it is nested**
(`Nesting.nest_tended`).
-/

namespace Stencil

open Branch Document List

variable {id : NodeId} {g : Body → Body} {bs : Branch} {nested : NodeId → Edit Unit}

namespace Node

variable {n : Node} {k : Nat}

theorem references_asBlock (n : Node) (kind : Kind) :
    ((n.asBlock kind).references ++ n.body.opening.nodes).Perm n.references := by
  have hp := n.setBranch_exchange 0 []
  have h1 := (n.asBlock kind).references_perm
  have h2 := n.references_perm
  have hbody : (n.asBlock kind).body = { n.body with opening := n.branch 0 } := rfl
  have hbranches : (n.asBlock kind).branches = (n.setBranch 0 []).branches := rfl
  rw [hbody, hbranches] at h1
  rw [perm_iff_count] at hp h1 h2 ⊢
  intro e
  have h := hp e
  have h1 := h1 e
  have h2 := h2 e
  simp only [Body.references, count_append, nodes_nil, count_nil] at h h1 h2 ⊢
  omega

theorem references_absorb {content : Branch} {new out : List NodeId}
    (hcontent : content.nodes = new ++ (n.branch k).nodes.reverse)
    (hg : ((g n.body).references ++ out).Perm (n.body.references ++ [id])) :
    ((n.absorb k content g).references ++ out).Perm (n.references ++ (new ++ [id])) := by
  have hfill : ((n.fill k content).branches.flatMap Branch.nodes).Perm
      (n.branches.flatMap Branch.nodes ++ new) := by
    rw [fill]
    split_ifs with hc
    · rw [isEmpty_iff.mp hc, nodes_nil] at hcontent
      rw [(append_eq_nil_iff.mp hcontent.symm).1, append_nil]
    · have hp := n.setBranch_exchange k content.reverse
      rw [nodes_reverse, hcontent] at hp
      rw [perm_iff_count] at hp ⊢
      intro e
      have := hp e
      simp only [count_append, count_reverse] at this ⊢
      omega
  have h1 := (n.absorb k content g).references_perm
  have h2 := n.references_perm
  have hbody : (n.absorb k content g).body = g n.body := rfl
  have hbranches : (n.absorb k content g).branches = (n.fill k content).branches := rfl
  rw [hbody, hbranches] at h1
  rw [perm_iff_count] at hfill hg h1 h2 ⊢
  intro e
  have hfill := hfill e
  have hg := hg e
  have h1 := h1 e
  have h2 := h2 e
  simp only [count_append] at hfill hg h1 h2 ⊢
  omega

end Node

namespace Nesting

variable {κ : Type} {d d' : Document} {p p' : Progress κ} {L loose : List NodeId}
  {b : OpenBlock κ} {outer : List (OpenBlock κ)}

/-- The nodes that open blocks hold: each block, and of its content what is not yet in the branch it
is for. -/
inductive Holding (d : Document) : List (OpenBlock κ) → List NodeId → Prop where
  | nil : Holding d [] []
  | cons {b : OpenBlock κ} {outer : List (OpenBlock κ)} {new loose : List NodeId} :
      b.content.nodes = new ++ (d.branch b.node b.branch).nodes.reverse → Holding d outer loose →
      Holding d (b :: outer) (b.node :: (new ++ loose))

theorem Holding.enter {b : OpenBlock κ}
    (hb : b.content.nodes = (d.branch b.node b.branch).nodes.reverse) (h : Holding d outer loose) :
    Holding d (b :: outer) (b.node :: loose) :=
  .cons (hb.trans (nil_append _).symm) h

theorem Holding.of_frame (h : Holding d outer loose) (hf : d.Frame d' loose) :
    Holding d' outer loose := by
  induction h with
  | nil => exact .nil
  | @cons b outer new loose hb _ ih =>
    have hnode := hf.node_eq b.node mem_cons_self _ .refl
    refine .cons ?_ (ih (hf.mono fun x hx => ?_))
    · rw [branch, hnode]
      exact hb
    · exact mem_cons_of_mem _ (mem_append_right _ hx)

/-- What has been built, where the nodes of `L` are held by others. -/
structure Held (d : Document) (p : Progress κ) (loose L : List NodeId) : Prop where
  holding : Holding d p.blocks loose
  grove : d.Grove (loose ++ (p.out.nodes ++ L))

/-- Something has been taken in, and what is held by others has not been touched. -/
structure Goes (d d' : Document) (p' : Progress κ) (L : List NodeId) : Prop where
  held : ∃ loose, Held d' p' loose L
  frame : d.Frame d' L

theorem perm_cons_held (id : NodeId) (loose out L : List NodeId) :
    (id :: (loose ++ (out ++ L))).Perm (loose ++ (out ++ (id :: L))) :=
  perm_middle.symm.trans (perm_middle.symm.append_left loose)

theorem Held.grove_cons (h : Held d p loose (id :: L)) :
    d.Grove (id :: (loose ++ (p.out.nodes ++ L))) :=
  h.grove.perm (perm_cons_held _ _ _ _).symm

theorem Held.put_text (h : Held d p loose L) (s : String) : Held d (p.put (.text s)) loose L := by
  obtain ⟨hholding, hgrove⟩ := h
  rw [Progress.put]
  split
  case h_1 b outer hb =>
    rw [hb] at hholding
    cases hholding with
    | cons hb hrest =>
      refine ⟨.cons ?_ hrest, hgrove⟩
      rw [nodes_stack_text]
      exact hb
  case h_2 hb =>
    refine ⟨hholding, ?_⟩
    rw [nodes_stack_text]
    exact hgrove

section

variable (h : Held d p loose (id :: L))
include h

theorem Held.put_node : ∃ loose', Held d (p.put (.node id)) loose' L := by
  have hmid := h.grove_cons
  obtain ⟨hholding, -⟩ := h
  rw [Progress.put]
  split
  case h_1 b outer hb =>
    rw [hb] at hholding
    cases hholding with
    | @cons _ _ new loose hb hrest =>
      have hnew : (b.content.stack (.node id)).nodes =
          (id :: new) ++ (d.branch b.node b.branch).nodes.reverse := by
        rw [nodes_stack_node, hb, cons_append]
      exact ⟨_, .cons hnew hrest, hmid.perm (List.Perm.swap _ _ _)⟩
  case h_2 hb =>
    refine ⟨loose, hholding, hmid.perm ?_⟩
    rw [nodes_stack_node]
    exact perm_middle.symm

theorem Held.enter {rule : BlockRule κ}
    (hok : Nesting.enter p id rule d = .ok p' d') : Goes d d' p' L := by
  obtain ⟨rfl, rfl⟩ := enter_eq_ok hok
  have hmid := h.grove_cons
  have hlt : id < d.size := hmid.lt_head
  have hrefs := (d.node id).references_asBlock rule.kind
  rw [← append_nil (d.node id).references] at hrefs
  have htended := Document.Grove.tended_modify (B := []) hmid .refl hrefs
  refine ⟨⟨id :: loose, .enter ?_ (h.holding.of_frame (htended.frame.mono ?_)), ?_⟩,
    htended.frame.mono ?_⟩
  · rw [branch, modify_self hlt]
    show [] = (((d.node id).setBranch 0 []).branch 0).nodes.reverse
    rw [Node.branch_setBranch, if_pos rfl]
    rfl
  · exact subset_append_left _ _
  · exact (htended.sublist (sublist_append_right _ _)).grove
  · exact fun x hx => mem_append_right _ (mem_append_right _ hx)

theorem Held.absorb (hblocks : p.blocks = b :: outer)
    (hg : ∀ body : Body, ∃ out, ((g body).references ++ out).Perm (body.references ++ [id]))
    (hd' : d' = d.modify b.node (Node.absorb b.branch b.content g)) :
    (∃ rest, Held d' { p with blocks := outer } rest (b.node :: L)) ∧ d.Frame d' L := by
  obtain ⟨hholding, hgrove⟩ := h
  subst hd'
  rw [hblocks] at hholding
  cases hholding with
  | @cons _ _ new rest hb hrest =>
    obtain ⟨out, hout⟩ := hg (d.node b.node).body
    have hg0 : d.Grove ((new ++ [id]) ++ (b.node :: (rest ++ (p.out.nodes ++ L)))) := by
      refine hgrove.perm ?_
      rw [perm_iff_count]
      intro e
      simp only [count_append, count_cons, count_nil]
      omega
    have htended := hg0.tended_modify .refl (Node.references_absorb hb hout)
    refine ⟨⟨rest, hrest.of_frame (htended.frame.mono ?_), ?_⟩,
      htended.frame.mono ?_⟩
    · exact subset_append_left _ _
    · exact (htended.sublist (sublist_append_right _ _)).grove.perm
        (perm_cons_held b.node rest p.out.nodes L)
    · exact fun x hx => mem_append_right _ (mem_append_right _ hx)

theorem Held.close (hblocks : p.blocks = b :: outer)
    (hok : Nesting.close p b outer id d = .ok p' d') : Goes d d' p' L := by
  obtain ⟨hd', rfl⟩ := close_eq_ok hok
  obtain ⟨⟨rest, hheld⟩, hframe⟩ := h.absorb (g := ({ · with closing := some id })) hblocks
    (fun body => ⟨body.closing.toList, by
      simp only [Body.references, Option.toList_some, append_assoc]
      exact (perm_append_comm.append_left _).append_left _⟩) hd'
  exact ⟨hheld.put_node, hframe⟩

theorem Held.separate {next : OpenBlock κ}
    (hblocks : p.blocks = b :: outer) (hnode : next.node = b.node)
    (hok : Nesting.separate p b next outer id d = .ok p' d') : Goes d d' p' L := by
  obtain ⟨hd', rfl⟩ := separate_eq_ok hok
  obtain ⟨⟨rest, hholding, hgrove⟩, hframe⟩ := h.absorb (g := (·.mark next.branch id)) hblocks
    (fun body => ⟨[], by
      simp only [Body.references, Body.mark, map_append, append_nil, append_assoc]
      exact (perm_append_comm.append_left _).append_left _⟩) hd'
  refine ⟨⟨next.node :: ([] ++ rest), .cons ?_ hholding, hgrove.perm ?_⟩, hframe⟩
  · rw [nodes_reverse]
    rfl
  · rw [hnode]
    exact (perm_cons_held _ _ _ _).symm

end

variable [DecidableEq κ] {n : Nesting κ}

/-- A way to go below the nodes that are kept, which keeps trees apart. -/
def Tends (nested : NodeId → Edit Unit) : Prop :=
  ∀ {d d' : Document} {id : NodeId} {L : List NodeId}, d.Grove (id :: L) →
    nested id d = .ok () d' → Document.Tended d d' [id] L

theorem Held.take (hn : Tends nested) (h : Held d p loose (id :: L))
    (hok : n.take nested p id d = .ok p' d') : Goes d d' p' L := by
  rcases take_cases hok with ⟨hnested, rfl⟩ | ⟨key, rule, -, -, hok⟩ |
    ⟨key, b, outer, -, hblocks, ⟨-, hok⟩ | ⟨next, hstep, hok⟩⟩
  · have htended := hn h.grove_cons hnested
    have hheld : Held d' p loose (id :: L) :=
      ⟨h.holding.of_frame (htended.frame.mono (subset_append_left _ _)),
        htended.grove.perm (perm_cons_held id loose p.out.nodes L)⟩
    exact ⟨hheld.put_node, htended.frame.mono fun x hx =>
      mem_append_right _ (mem_append_right _ hx)⟩
  · exact h.enter hok
  · exact h.close hblocks hok
  · exact h.separate hblocks (step_separates hstep).1 hok

theorem Held.foldlM (hn : Tends nested) (h : Held d p loose (bs.nodes ++ L))
    (hok : bs.foldlM (n.takeFragment nested) p d = .ok p' d') : Goes d d' p' L := by
  have hall := foldlM_induction (P := fun b p e => (∃ loose, Held e p loose (b.nodes ++ L)) ∧
    d.Frame e L) (fun ⟨⟨loose, h⟩, hframe⟩ => ⟨⟨loose, h.put_text _⟩, hframe⟩)
    (fun ⟨⟨loose, h⟩, hframe⟩ hstep => by
      rw [nodes_cons_node, cons_append] at h
      obtain ⟨hheld, hframe'⟩ := h.take hn hstep
      exact ⟨hheld, hframe.trans (hframe'.mono (subset_append_right _ _))⟩) ⟨⟨loose, h⟩, .refl _ _⟩ hok
  exact ⟨hall.1, hall.2⟩

theorem nestBranch_tended {bs' : Branch} (hn : Tends nested)
    (h : d.Grove (bs.nodes ++ L)) (hok : n.nestBranch nested bs d = .ok bs' d') :
    Document.Tended d d' bs'.nodes L := by
  obtain ⟨p, hfold, hblocks, rfl⟩ := nestBranch_eq_ok hok
  have hstart : Held d ({} : Progress κ) [] (bs.nodes ++ L) := ⟨.nil, h⟩
  obtain ⟨⟨loose, hholding, hgrove⟩, hframe⟩ := hstart.foldlM hn hfold
  rw [hblocks] at hholding
  cases hholding
  refine ⟨hgrove.perm ?_, hframe⟩
  rw [nodes_reverse]
  exact (reverse_perm _).symm.append_right L

theorem nestNode_tends (levels : Nat) : Tends (n.nestNode levels) := by
  induction levels with
  | zero =>
    intro d d' id L h hok
    obtain ⟨-, rfl⟩ := pure_eq_ok.mp hok
    exact .refl h
  | succ levels ih =>
    intro d d' id L h hok
    exact (h.tended_mapBranches (I := fun _ => True) .refl trivial (fun _ _ _ _ _ => trivial)
      (fun d b b' d' L _ hg hok => ⟨trivial, nestBranch_tended ih hg hok⟩) hok).2

theorem nest_tended (h : d.Grove (id :: L)) (hok : n.nest id d = .ok () d') :
    Document.Tended d d' [id] L := by
  rw [nest, get_bind] at hok
  exact nestNode_tends d.size h hok

end Nesting

end Stencil
