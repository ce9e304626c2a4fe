import Stencil.Proofs.Doc.Alike
import Stencil.Proofs.Doc.Walking

/-!
# A node in the place of another

A node that is below the root is found there, so another one can take its place (`Grove.swapped`).

A walk over the document meets the new node and what is below it where it met the old one, and else the
same nodes in the same order (`Exchanged.walk_eq`).
-/

namespace Stencil

open Branch List

namespace Document

variable {d d' : Document} {L L' : List NodeId} {c id new old owner x y : NodeId}
  {enter enter' : NodeId → Bool} {n : Nat}

/-- In a branch of its owner a node has taken the place of another. -/
structure Swapped (d d' : Document) (owner old new : NodeId) : Prop where
  size_eq : d'.size = d.size
  node_eq : ∀ y, y ≠ owner → d'.node y = d.node y
  kind_eq : d'.kind owner = d.kind owner
  kids_eq : ∃ l r, d.kids owner = l ++ old :: r ∧ d'.kids owner = l ++ new :: r

theorem Swapped.mem_owner (h : d.Swapped d' owner old new) : old ∈ d.kids owner := by
  obtain ⟨l, r, hl, -⟩ := h.kids_eq
  simp [hl]

theorem Grove.swapped (h : d.Grove L) (node : NodeId) (hroot : root < d.size) (hx : d.Encloses root x) :
    ∃ p, d.Swapped (d.replaceNode x [.node node]).2 p x node := by
  obtain ⟨slot, hslot⟩ := locateBelow_of_encloses hx (h.shallow_kids hroot)
  have hget := (locateBelow_eq_some hslot).2
  rw [Document.replaceNode, locate, hslot]
  dsimp only
  set b := d.branch slot.owner slot.branch with hb
  have hin : x ∈ b.nodes := mem_nodes.mpr (mem_of_getElem? hget)
  have hi : slot.branch < (d.branches slot.owner).length := lt_of_mem_branch hin
  have hlt : slot.owner < d.size :=
    lt_of_ref (refs_of_branch (branch_mem hi) hin)
  have hbi : (d.branches slot.owner)[slot.branch] = b := by
    rw [hb, branch, Node.branch, getD_eq_getElem?_getD, ← branches, getElem?_eq_getElem hi]
    rfl
  refine ⟨slot.owner, size_modify _ _ _, fun y hy => modify_ne hy, ?_,
    ((d.branches slot.owner).take slot.branch).flatMap Branch.nodes ++
      Branch.nodes (b.take slot.index),
    Branch.nodes (b.drop (slot.index + 1)) ++
      ((d.branches slot.owner).drop (slot.branch + 1)).flatMap Branch.nodes, ?_, ?_⟩
  · rw [kind, setBranch, modify_self hlt]
    rfl
  · conv_lhs => rw [kids, ← take_append_drop slot.branch (d.branches slot.owner),
      drop_eq_getElem_cons hi, hbi, flatMap_append, flatMap_cons, nodes_eq_of_getElem? hget]
    simp
  · rw [kids, branches, setBranch, modify_self hlt, Node.setBranch, Node.branches_grow hi,
      set_eq_take_append_cons_drop, ← branches, if_pos hi, flatMap_append, flatMap_cons,
      nodes_ofFragments]
    simp

theorem below_succ (d : Document) (enter : NodeId → Bool) (n : Nat) (id : NodeId) :
    d.below enter (n + 1) id =
      (d.kids id).flatMap fun c => c :: if enter c then d.below enter n c else [] := by
  rw [below, kids, flatMap_assoc]

theorem below_eq_of_shallow (hs : Shallow d.kids n id) {m : Nat} (hnm : n ≤ m) :
    d.below enter m id = d.below enter n id := by
  induction n generalizing id m with
  | zero => exact hs.elim
  | succ n ih =>
    obtain ⟨m, rfl⟩ : ∃ k, m = k + 1 := ⟨m - 1, by omega⟩
    rw [below_succ, below_succ]
    refine flatMap_congr fun c hc => ?_
    rw [ih (hs c hc) (by omega)]

def walkFrom (d : Document) (enter : NodeId → Bool) (c : NodeId) : List NodeId :=
  c :: if enter c then d.walk c enter else []

theorem Grove.walk_eq (h : d.Grove L) (hid : id < d.size) (enter : NodeId → Bool) :
    d.walk id enter = (d.kids id).flatMap (d.walkFrom enter) := by
  have hs := h.shallow_kids hid
  obtain ⟨n, hn⟩ := hs.exists_succ
  rw [walk, hn, below_succ]
  rw [hn] at hs
  refine flatMap_congr fun c hc => ?_
  rw [walkFrom, walk, hn, below_eq_of_shallow (hs c hc) (Nat.le_succ n)]

theorem below_eq_of_reaches (hkids : ∀ y, Reaches d.kids id y → d'.kids y = d.kids y)
    (henter : ∀ y, Reaches d.kids id y → enter' y = enter y) :
    d'.below enter' n id = d.below enter n id := by
  induction n generalizing id with
  | zero => rfl
  | succ n ih =>
    rw [below_succ, below_succ, hkids id .refl]
    refine flatMap_congr fun c hc => ?_
    have hr := Reaches.child hc
    rw [henter c hr, ih (fun y hy => hkids y (hr.trans hy)) fun y hy => henter y (hr.trans hy)]

theorem Grove.walkFrom_congr (h : d.Grove L) (hc : c < d.size) (hsize : d.size ≤ d'.size)
    (hkids : ∀ y, Reaches d.kids c y → d'.kids y = d.kids y)
    (henter : ∀ y, Reaches d.kids c y → enter' y = enter y) :
    d'.walkFrom enter' c = d.walkFrom enter c := by
  rw [walkFrom, walkFrom, walk, walk, henter c .refl, below_eq_of_reaches hkids henter,
    below_eq_of_shallow (h.shallow_kids hc) hsize]

/-- A new node stands where the old one stood, and all other nodes are as before. -/
structure Exchanged (d d' : Document) (owner old new : NodeId) : Prop where
  size_le : d.size ≤ d'.size
  node_eq : ∀ y < d.size, y ≠ owner → d'.node y = d.node y
  kind_eq : d'.kind owner = d.kind owner
  kids_eq : ∃ l r, d.kids owner = l ++ old :: r ∧ d'.kids owner = l ++ new :: r

namespace Exchanged

theorem mem_owner (h : d.Exchanged d' owner old new) : old ∈ d.kids owner := by
  obtain ⟨l, r, hl, -⟩ := h.kids_eq
  simp [hl]

theorem kind_eq_of_lt (h : d.Exchanged d' owner old new) (hy : y < d.size) : d'.kind y = d.kind y := by
  by_cases hyp : y = owner
  · rw [hyp, h.kind_eq]
  · exact kind_congr (h.node_eq y hy hyp)

theorem mem_kids (h : d.Exchanged d' owner old new) (hg : d.Grove L) :
    c ∈ d'.kids owner ↔ c ∈ d.kids owner ∧ c ≠ old ∨ c = new := by
  obtain ⟨l, r, hl, hl'⟩ := h.kids_eq
  have hn : (l ++ old :: r).Nodup := hl ▸ (hg.nodup_refs owner).sublist (d.kids_sublist_refs owner)
  rw [nodup_middle, nodup_cons, mem_append, not_or] at hn
  obtain ⟨⟨hnl, hnr⟩, -⟩ := hn
  rw [hl, hl']
  grind

section

variable (h : d.Exchanged d' owner old new) (hg : d.Grove L)
  (henter : ∀ y < d.size, enter' y = enter y)
include h hg henter

theorem walkFrom_eq (hc : c < d.size) (hr : ¬ Reaches d.kids c owner) :
    d'.walkFrom enter' c = d.walkFrom enter c := by
  have hlt : ∀ y, Reaches d.kids c y → y < d.size := fun y hy =>
    hg.lt_of_reaches hc (hy.mono d.kids_sub)
  refine hg.walkFrom_congr hc h.size_le (fun y hy => ?_) fun y hy => henter y (hlt y hy)
  exact kids_congr (h.node_eq y (hlt y hy) (by rintro rfl; exact hr hy))

theorem walk_eq (hg' : d'.Grove L') (hx : x < d.size) (hmet : d.Met enter x old) :
    ∃ before after, d.walk x enter = before ++ d.walkFrom enter old ++ after ∧
      d'.walk x enter' = before ++ d'.walkFrom enter' new ++ after := by
  have hsame : ∀ {x : NodeId} {cs : List NodeId}, (∀ c ∈ cs, c ∈ d.kids x) →
      (∀ c ∈ cs, ¬ Reaches d.kids c owner) →
      cs.flatMap (d'.walkFrom enter') = cs.flatMap (d.walkFrom enter) := fun {x cs} hsub hr =>
    flatMap_congr fun c hc => h.walkFrom_eq hg henter
      (hg.lt_of_refs (d.kids_sub x (hsub c hc))) (hr c hc)
  generalize hold : old = o at hmet
  induction hmet with
  | @kid x c hc =>
    subst hold
    obtain rfl := hg.owner_eq (d.kids_sub x hc) (d.kids_sub owner h.mem_owner)
    obtain ⟨l, r, hl, hl'⟩ := h.kids_eq
    have hno : ∀ c ∈ d.kids x, ¬ Reaches d.kids c x := fun c hc hr =>
      hg.not_reaches_mem (d.kids_sub x hc) (hr.mono d.kids_sub)
    have hsub : ∀ c ∈ l ++ r, c ∈ d.kids x := fun c hc => by rw [hl]; grind
    refine ⟨l.flatMap (d.walkFrom enter), r.flatMap (d.walkFrom enter), ?_, ?_⟩
    · rw [hg.walk_eq hx, hl]
      simp
    · rw [hg'.walk_eq (lt_of_lt_of_le hx h.size_le), hl',
        ← hsame (fun c hc => hsub c (mem_append_left r hc))
          fun c hc => hno c (hsub c (mem_append_left r hc)),
        ← hsame (fun c hc => hsub c (mem_append_right l hc))
          fun c hc => hno c (hsub c (mem_append_right l hc))]
      simp
  | @deeper x c y hc hopen hmet ih =>
    subst hold
    have hcd : c < d.size := hg.lt_of_refs (d.kids_sub x hc)
    -- the owner is below the node that is entered
    have hco : Reaches d.refs c owner := by
      obtain ⟨q, hq, hqo⟩ := Relation.TransGen.tail'_iff.mp hmet.encloses
      obtain rfl := hg.owner_eq (d.kids_sub q hqo) (d.kids_sub owner h.mem_owner)
      exact Reaches.mono d.kids_sub hq
    have hxo : x ≠ owner := by
      rintro rfl
      exact hg.not_reaches_mem (d.kids_sub x hc) hco
    obtain ⟨before, after, hd, hd'⟩ := ih hcd rfl
    obtain ⟨l, r, hl⟩ := append_of_mem hc
    have hn : (l ++ c :: r).Nodup := hl ▸ (hg.nodup_refs x).sublist (d.kids_sublist_refs x)
    have hsub : ∀ e ∈ l ++ r, e ∈ d.kids x := fun e he => by rw [hl]; grind
    have hno : ∀ e ∈ l ++ r, ¬ Reaches d.kids e owner := fun e he hr =>
      hg.siblings_apart (d.kids_sub x hc) (d.kids_sub x (hsub e he))
        (by rintro rfl; rw [nodup_middle] at hn; exact (nodup_cons.mp hn).1 he) hco
        (hr.mono d.kids_sub)
    refine ⟨l.flatMap (d.walkFrom enter) ++ c :: before, after ++ r.flatMap (d.walkFrom enter), ?_, ?_⟩
    · rw [hg.walk_eq hx, hl, flatMap_append, flatMap_cons, walkFrom, if_pos hopen, hd]
      simp
    · rw [hg'.walk_eq (lt_of_lt_of_le hx h.size_le), kids_congr (h.node_eq x hx hxo), hl,
        flatMap_append, flatMap_cons, walkFrom, henter c hcd, if_pos hopen, hd',
        hsame (fun e he => hsub e (mem_append_left r he))
          fun e he => hno e (mem_append_left r he),
        hsame (fun e he => hsub e (mem_append_right l he))
          fun e he => hno e (mem_append_right l he)]
      simp

end

end Exchanged

end Document

end Stencil
