import Stencil.Doc.Edit
import Stencil.Doc.Editing
import Stencil.Proofs.Doc.Writing

/-!
# Reading back what was written

What a node of a document is after an operation on the document, and how many nodes there are. Every
operation is `modify` at one node or `create`; the lemmas for these two come first.
-/

namespace Stencil

open List

variable {α : Type}

theorem lookup_of_mem {α β : Type} [BEq α] [LawfulBEq α] {l : List (α × β)} {a : α} {b : β}
    (hn : (l.map Prod.fst).Nodup) (h : (a, b) ∈ l) : l.lookup a = some b := by
  induction l with
  | nil => cases h
  | cons p l ih =>
    obtain ⟨k, v⟩ := p
    rw [map_cons, nodup_cons] at hn
    rcases mem_cons.mp h with heq | hmem
    · cases heq
      exact lookup_cons_self
    · have hne : (a == k) = false := by
        rw [beq_eq_false_iff_ne]
        rintro rfl
        exact hn.1 (mem_map.mpr ⟨(a, b), hmem, rfl⟩)
      rw [lookup_cons, hne]
      exact ih hn.2 hmem

namespace Node

theorem branch_zero (n : Node) : n.branch 0 = n.children := by
  rw [branch, children]
  cases n.branches <;> rfl

theorem setBranch_zero (n : Node) (b : Branch) :
    n.setBranch 0 b = { n with branches := b :: n.branches.tail } := by
  rw [setBranch, grow]
  cases n.branches with
  | nil => rfl
  | cons c cs => simp

theorem flatMap_set_perm {β : Type} (f : α → List β) (l : List α) (i : Nat) (h : i < l.length)
    (a : α) : ((l.set i a).flatMap f ++ f l[i]).Perm (l.flatMap f ++ f a) := by
  classical
  induction l generalizing i with
  | nil => exact absurd h (Nat.not_lt_zero i)
  | cons x l ih =>
    cases i with
    | zero =>
      rw [perm_iff_count]
      intro e
      simp only [set_cons_zero, flatMap_cons, getElem_cons_zero, count_append]
      omega
    | succ i =>
      have hp := ih i (Nat.lt_of_succ_lt_succ h)
      rw [perm_iff_count] at hp ⊢
      intro e
      have := hp e
      simp only [set_cons_succ, flatMap_cons, getElem_cons_succ, count_append]
        at this ⊢
      omega

theorem length_setBranch (n : Node) (k : Nat) (b : Branch) :
    (n.setBranch k b).branches.length = max n.branches.length (k + 1) := by
  simp only [setBranch, grow, length_set, length_append, length_replicate]
  omega

theorem lt_length_grow (n : Node) (k : Nat) : k < (n.grow k).branches.length := by
  simp only [grow, length_append, length_replicate]
  omega

theorem branch_grow (n : Node) (k i : Nat) : (n.grow k).branch i = n.branch i := by
  simp only [grow, branch, getD_eq_getElem?_getD, getElem?_append]
  split_ifs with hlt
  · rfl
  · rw [getElem?_replicate, getElem?_eq_none (not_lt.mp hlt)]
    split_ifs <;> rfl

theorem branch_setBranch (n : Node) (k i : Nat) (b : Branch) :
    (n.setBranch k b).branch i = if i = k then b else n.branch i := by
  rw [← branch_grow n k i]
  simp only [setBranch, branch, getD_eq_getElem?_getD, getElem?_set]
  by_cases hi : k = i
  · subst hi
    simp [lt_length_grow]
  · rw [if_neg hi, if_neg (Ne.symm hi)]

theorem setBranch_exchange (n : Node) (k : Nat) (b : Branch) :
    ((n.setBranch k b).branches.flatMap Branch.nodes ++ (n.branch k).nodes).Perm
      (n.branches.flatMap Branch.nodes ++ b.nodes) := by
  have hk := n.lt_length_grow k
  have hold : (n.grow k).branches[k] = n.branch k := by
    rw [← getD_eq_getElem _ [] hk]
    exact n.branch_grow k k
  have hgrow : (n.grow k).branches.flatMap Branch.nodes = n.branches.flatMap Branch.nodes := by
    have hnil : (List.replicate (k + 1 - n.branches.length) ([] : Branch)).flatMap
        Branch.nodes = [] :=
      flatMap_eq_nil_iff.mpr fun b hb => by rw [eq_of_mem_replicate hb]; rfl
    rw [grow, flatMap_append, hnil, append_nil]
  have hp := flatMap_set_perm Branch.nodes (n.grow k).branches k hk b
  rw [hold, hgrow] at hp
  exact hp

theorem references_perm (n : Node) :
    n.references.Perm (n.body.references ++ n.branches.flatMap Branch.nodes) := by
  rw [references, Body.references, append_assoc, append_assoc _ _ (n.branches.flatMap _)]
  exact List.Perm.append_left _ perm_append_comm

theorem refs_setBranch (n : Node) (k : Nat) (b : Branch) :
    ((n.setBranch k b).references ++ (n.branch k).nodes).Perm (n.references ++ b.nodes) := by
  have hp := n.setBranch_exchange k b
  have h1 := (n.setBranch k b).references_perm
  have h2 := n.references_perm
  have hbody : (n.setBranch k b).body = n.body := rfl
  rw [hbody] at h1
  rw [perm_iff_count] at hp h1 h2 ⊢
  intro e
  have h := hp e
  have h1 := h1 e
  have h2 := h2 e
  simp only [count_append] at h h1 h2 ⊢
  omega

end Node

namespace Document

variable {d : Document} {id x c : NodeId} {f : Node → Node}

@[simp] theorem size_modify (d : Document) (id : NodeId) (f : Node → Node) :
    (d.modify id f).size = d.size := by
  simp [modify, size]

theorem modify_ne (h : x ≠ id) : (d.modify id f).node x = d.node x := by
  simp [modify, node, Array.getElem?_modify, h.symm]

theorem modify_self (h : id < d.size) : (d.modify id f).node id = f (d.node id) := by
  simp only [size] at h
  simp [modify, node, Array.getElem_modify_self, h]

theorem modify_of_le (h : d.size ≤ id) : d.modify id f = d := by
  simp only [size] at h
  cases d with
  | mk nodes =>
    simp only [modify, mk.injEq]
    ext i hi hi'
    · simp
    · rw [Array.getElem_modify, if_neg]
      rintro rfl
      exact absurd hi' (not_lt.mpr h)

theorem modify_congr {g : Node → Node} (h : f (d.node id) = g (d.node id)) :
    d.modify id f = d.modify id g := by
  cases d with
  | mk nodes =>
    simp only [modify, mk.injEq]
    ext i hi hi'
    · simp
    · simp only [Array.getElem_modify]
      split_ifs with heq
      · subst heq
        have hlt : id < nodes.size := by simpa using hi
        simpa [node, hlt] using h
      · rfl

theorem modify_modify (d : Document) (id : NodeId) (f g : Node → Node) :
    (d.modify id f).modify id g = d.modify id fun n => g (f n) := by
  cases d with
  | mk nodes =>
    simp only [modify, mk.injEq]
    ext i hi hi'
    · simp
    · simp only [Array.getElem_modify]
      split_ifs <;> rfl

theorem modify_id (d : Document) (id : NodeId) : (d.modify id fun n => n) = d := by
  cases d with
  | mk nodes =>
    simp only [modify, mk.injEq]
    ext i hi hi'
    · simp
    · simp only [Array.getElem_modify]
      split_ifs <;> rfl

theorem node_modify_cases (d : Document) (id : NodeId) (f : Node → Node) (x : NodeId) :
    (d.modify id f).node x = d.node x ∨
      id < d.size ∧ x = id ∧ (d.modify id f).node x = f (d.node id) := by
  by_cases hx : x = id
  · subst hx
    by_cases hlt : x < d.size
    · exact .inr ⟨hlt, rfl, modify_self hlt⟩
    · exact .inl (by rw [modify_of_le (not_lt.mp hlt)])
  · exact .inl (modify_ne hx)

theorem modify_of_eq (g : Node → α) (h : g (f (d.node id)) = g (d.node id)) :
    g ((d.modify id f).node x) = g (d.node x) := by
  rcases node_modify_cases d id f x with heq | ⟨-, rfl, heq⟩
  · rw [heq]
  · rw [heq, h]

theorem node_of_le (h : d.size ≤ x) : d.node x = { kind := .root, place := Place.startOf "" } := by
  simp only [size] at h
  simp [node, h]

theorem refs_of_le (h : d.size ≤ x) : d.refs x = [] := by
  rw [refs, node_of_le h]
  rfl

theorem lt_of_ref (h : c ∈ d.refs x) : x < d.size := by
  by_contra hx
  rw [refs_of_le (not_lt.mp hx)] at h
  cases h

theorem lt_of_kind_ne (hk : d.kind x ≠ .root) : x < d.size := by
  by_contra hx
  rw [kind, node_of_le (not_lt.mp hx)] at hk
  exact hk rfl

variable {kind : Kind} {place : Place}

@[simp] theorem size_create (d : Document) (kind : Kind) (place : Place) :
    (d.create kind place).2.size = d.size + 1 := by
  simp [create, size]

theorem create_self : (d.create kind place).2.node d.size = { kind, place } := by
  simp [create, node, size]

theorem node_create_ne (h : x ≠ d.size) : (d.create kind place).2.node x = d.node x := by
  simp only [create, node, size] at *
  rcases Nat.lt_or_gt_of_ne h with hlt | hgt
  · rw [Array.getElem?_push_lt hlt, Array.getElem?_eq_getElem hlt]
  · rw [Array.getElem?_eq_none (by simp; omega), Array.getElem?_eq_none (by omega)]

theorem create_of_lt (h : x < d.size) : (d.create kind place).2.node x = d.node x :=
  node_create_ne (ne_of_lt h)

end Document

end Stencil
