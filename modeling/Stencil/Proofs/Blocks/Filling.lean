import Stencil.Blocks
import Stencil.Proofs.Doc.Bodies

/-!
# What blocks take in

An opening marker becomes a node with a body (`Node.asBlock`), and a block takes in what was put into
its last branch together with the marker behind it (`Node.absorb`).
-/

namespace Stencil

open Branch List Node

variable {id : NodeId} {g : Body → Body} {content : Branch} {k : Nat} {n : Node}

namespace Node

/-- A marker made a node with a body: its children become the opening of the body. -/
def asBlock (kind : Kind) (n : Node) : Node :=
  { n with
    kind
    branches := (n.setBranch 0 []).branches
    payload := .body { n.body with opening := n.branch 0 } }

/-- Puts content, which is held in reverse, into a branch. An empty branch is not made. -/
def fill (k : Nat) (content : Branch) (n : Node) : Node :=
  if content.isEmpty then n else n.setBranch k content.reverse

def absorb (k : Nat) (content : Branch) (g : Body → Body) (n : Node) : Node :=
  { n.fill k content with payload := .body (g n.body) }

theorem nodes_setBranch_perm (b : Branch) (h : n.branch k = []) :
    ((n.setBranch k b).branches.flatMap Branch.nodes).Perm
      (n.branches.flatMap Branch.nodes ++ b.nodes) := by
  have hp := n.setBranch_exchange k b
  rwa [h, nodes_nil, append_nil] at hp

theorem filling_fill (content : Branch) (hlen : n.branches.length ≤ k + 1) (hemp : n.branch k = []) :
    Document.Filling n.branches (n.fill k content).branches k content.reverse := by
  rw [fill]
  split_ifs with hc
  · rw [isEmpty_iff.mp hc]
    exact ⟨hlen, hemp, fun _ _ => rfl, hemp, hlen⟩
  · refine ⟨hlen, hemp, fun i hi => ?_, ?_, ?_⟩
    · exact (n.branch_setBranch k i _).trans (if_neg hi)
    · exact (n.branch_setBranch k k _).trans (if_pos rfl)
    · rw [length_setBranch]
      omega

theorem nodes_fill_perm (content : Branch) (hemp : n.branch k = []) :
    ((n.fill k content).branches.flatMap Branch.nodes).Perm
      (n.branches.flatMap Branch.nodes ++ content.nodes) := by
  rw [fill]
  split_ifs with hc
  · rw [isEmpty_iff.mp hc, nodes_nil, append_nil]
  · refine (nodes_setBranch_perm _ hemp).trans (List.Perm.append_left _ ?_)
    rw [nodes_reverse]
    exact reverse_perm _

theorem kind_fill (n : Node) (k : Nat) (content : Branch) : (n.fill k content).kind = n.kind := by
  rw [fill]
  split_ifs <;> rfl

theorem place_fill (n : Node) (k : Nat) (content : Branch) : (n.fill k content).place = n.place := by
  rw [fill]
  split_ifs <;> rfl

theorem body_fill (n : Node) (k : Nat) (content : Branch) : (n.fill k content).body = n.body := by
  rw [fill]
  split_ifs <;> rfl

theorem references_absorb_perm (hemp : n.branch k = [])
    (hg : (g n.body).references.Perm (n.body.references ++ [id])) :
    (n.absorb k content g).references.Perm (n.references ++ (content.nodes ++ [id])) := by
  have hbody : (n.absorb k content g).body = g n.body := rfl
  have hp := nodes_fill_perm content hemp
  refine (references_perm _).trans (List.Perm.trans ?_ ((references_perm n).symm.append_right _))
  rw [hbody]
  refine (hg.append hp).trans ?_
  rw [perm_iff_count]
  intro e
  simp only [count_append]
  omega

end Node

namespace Document

variable {m : Manner} {full : Prop} {d : Document} {x : NodeId} {L : List NodeId}

theorem node_asBlock (kind : Kind) {b : Branch} (hnone : n.body? = none) (hb : n.branches = [b]) :
    n.asBlock kind = { n with kind, branches := [[]], payload := .body { opening := b } } := by
  simp [Node.asBlock, setBranch_zero, Node.branch, Node.body, hnone, hb]

theorem asBlock_retold {kind : Kind} (hm : m.Orderly full) (h : d.Grove (id :: L)) (hp : d.Plain)
    (hnone : (d.node id).payload = .none) (hlen : (d.node id).branches.length = 1)
    (hdel : kind.openingDelimiters = (d.kind id).delimiters.getD ("", "")) :
    Retold m d (d.modify id (Node.asBlock kind)) id L := by
  have hlt : id < d.size := h.lt_head
  obtain ⟨b, hb⟩ := length_eq_one_iff.mp hlen
  have hnode := node_asBlock kind (by rw [Node.body?, hnone]) hb
  set d' := d.modify id (Node.asBlock kind)
  have hnode' : d'.node id =
      { d.node id with kind, branches := [[]], payload := .body { opening := b } } :=
    (modify_self hlt).trans hnode
  have hgrove : d'.Grove (id :: L) := h.modify_same <| by
    rw [hnode]
    simp [Node.references, Node.body, Node.body?, hnone, hb]
  have hplain : d'.Plain := fun y => by
    by_cases hy : y = id
    · rw [hy, hnode']
      rfl
    · rw [modify_ne hy]
      exact hp y
  have hrefs : ∀ {c}, c ∈ b.nodes → c ∈ d.refs id := fun hc =>
    refs_of_branch (by rw [branches, hb]; exact mem_cons_self) hc
  have hframe : d.Frame d' b.nodes := .modify fun y hy => h.not_reaches_mem (hrefs hy)
  have hwrite : writeBranch (d'.render m) b = writeBranch (d.render m) b :=
    branch_congr fun c hc =>
      hframe.render_eq hm.isLocal h hp hc (h.lt_of_refs (hrefs hc)) .refl
  refine ⟨hgrove, hplain, .modify fun y hy => h.not_reaches_head hy, ?_⟩
  have hkind : d'.kind id = kind := by rw [Document.kind, hnode']
  have hbs : d'.branches id = [[]] := by rw [branches, hnode']
  rw [hgrove.render_eq hm.isLocal hplain hgrove.lt_head,
    h.render_eq hm.isLocal hp hlt, hm.of_none hnone,
    hm.of_body (b := { opening := b }) (by rw [hnode']) (.inr rfl), Option.getD_none,
    write_of_none hnone, hkind, hdel, hwrite, hbs, writeBranches, branches, hb,
    whole_of_no_markers rfl]
  simp [writeBody]

/-- A loose node has taken in others, and `s` has been added to what is written for it. -/
structure Taken (m : Manner) (d d' : Document) (x : NodeId) (L : List NodeId) (s : String) :
    Prop where
  grove : d'.Grove (x :: L)
  plain : d'.Plain
  frame : d.Frame d' L
  render_eq : d'.render m x = d.render m x ++ s

theorem absorb_taken {b : Body}
    (hm : m.Orderly full) (h : d.Grove (x :: (content.nodes ++ (id :: L)))) (hp : d.Plain)
    (hb : (d.node x).payload = .body b) (hmarkers : full ∨ b.markers = [])
    (hmarkers' : full ∨ (g b).markers = []) (hopening : (g b).opening = b.opening)
    (hemp : (d.node x).branch k = []) (hrefs : (g b).references.Perm (b.references ++ [id]))
    (htext : ∀ w, wholeBody w ((d.node x).fill k content).branches (g b) =
      wholeBody w (d.branches x) b ++ (writeBranch w content.reverse ++ w id)) :
    Taken m d (d.modify x (Node.absorb k content g)) x L
      (writeBranch (d.render m) content.reverse ++ d.render m id) := by
  have hlt : x < d.size := h.lt_head
  have hbody : (d.node x).body = b := by simp [Node.body, Node.body?, hb]
  have hperm : ((d.node x).absorb k content g).references.Perm
      ((d.node x).references ++ (content.nodes ++ [id])) :=
    references_absorb_perm hemp (by rw [hbody]; exact hrefs)
  have hassoc : d.Grove (x :: ((content.nodes ++ [id]) ++ L)) := by
    rw [append_assoc]
    exact h
  obtain ⟨hgrove, hframe, hrest⟩ := hassoc.takeIn hperm
  set d' := d.modify x (Node.absorb k content g)
  have hnode : d'.node x = (d.node x).absorb k content g := modify_self hlt
  have hplain : d'.Plain := fun y => by
    by_cases hy : y = x
    · rw [hy, hnode]
      rfl
    · rw [modify_ne hy]
      exact hp y
  refine ⟨hgrove, hplain, hframe.mono (subset_append_right _ _), ?_⟩
  have hsame : ∀ c ∈ d'.refs x, d'.render m c = d.render m c := fun c hc =>
    hrest.render_refs_eq hm.isLocal h hp hgrove (size_modify _ _ _) hc
  have hb' : (d'.node x).payload = .body (g b) := by rw [hnode, Node.absorb, hbody]
  have hkind : d'.kind x = d.kind x := by
    rw [Document.kind, hnode]
    exact kind_fill _ _ _
  have hbs : d'.branches x = ((d.node x).fill k content).branches := by rw [branches, hnode]; rfl
  have hbody' : (d'.node x).body = g b := by simp [Node.body, Node.body?, hb']
  have hopen : writeBranch (d'.render m) (g b).opening = writeBranch (d.render m) b.opening := by
    rw [← hopening]
    refine branch_congr fun c hc => hsame c ?_
    refine body_refs_sub _ ?_
    rw [hbody']
    exact Body.mem_references.mpr (.inl hc)
  have hwhole : wholeBody (d'.render m) (d'.branches x) (g b) =
      wholeBody (d.render m) (d'.branches x) (g b) := by
    refine wholeBody_congr (fun c hc => hsame c ?_) (map_congr_left fun b hb =>
      branch_congr fun c hc => hsame c (refs_of_branch hb hc))
    exact body_refs_sub _ (hbody' ▸ hc)
  rw [hgrove.render_eq hm.isLocal hplain hgrove.lt_head,
    h.render_eq hm.isLocal hp hlt, hm.of_body hb' hmarkers', hm.of_body hb hmarkers, hkind, hopen,
    hwhole, hbs, htext]
  simp only [String.append_assoc]

end Document

end Stencil
