import Stencil.Proofs.Doc.Retelling

/-!
# Alike nodes

How the text of a branch is cut into pieces does not show in what is written for it. So branches are
compared character by character, as `Branch.items`, and nodes that agree but for the cuts and for
their places are `Alike`. An operation that takes a branch apart and puts it together again leaves
nodes alike, and **what is written for a node does not change if all nodes below it stay alike**
(`render_alike`), in any manner that looks at texts only (`Manner.Textual`).
-/

namespace Stencil

open List

variable {d d' : Document} {id x : NodeId} {b : Branch} {i : Nat}

inductive Item where
  | char (c : Char)
  | node (id : NodeId)
  deriving DecidableEq

namespace Item

def node? : Item → Option NodeId
  | char _ => none
  | node id => some id

def chars (w : NodeId → String) : Item → List Char
  | char c => [c]
  | node id => (w id).toList

end Item

namespace Branch

def items (b : Branch) : List Item :=
  b.flatMap fun
    | .text s => s.toList.map .char
    | .node id => [.node id]

@[simp] theorem items_nil : items [] = [] := rfl

@[simp] theorem items_cons_text (s : String) (b : Branch) :
    items (.text s :: b) = s.toList.map .char ++ items b := rfl

@[simp] theorem items_cons_node (id : NodeId) (b : Branch) :
    items (.node id :: b) = .node id :: items b := rfl

@[simp] theorem items_append (b b' : Branch) : items (b ++ b') = items b ++ items b' :=
  flatMap_append

@[simp] theorem mem_items : .node id ∈ items b ↔ id ∈ b.nodes := by
  induction b with
  | nil => simp
  | cons f b ih => cases f <;> simp [ih]

theorem items_stack (b : Branch) (f : Fragment) :
    items (b.stack f).reverse = items b.reverse ++ items [f] := by
  cases f with
  | node id => simp [stack]
  | text s =>
    simp only [stack]
    split_ifs with hs
    · simp [hs]
    · split <;> simp

theorem items_reverse_foldl_stack (fragments : List Fragment) (b : Branch) :
    items (fragments.foldl stack b).reverse = items b.reverse ++ items fragments := by
  induction fragments generalizing b with
  | nil => rw [items_nil, append_nil]; rfl
  | cons f fragments ih =>
    rw [foldl_cons, ih, items_stack, append_assoc, ← items_append, singleton_append]

theorem nodes_eq_filterMap (b : Branch) : b.nodes = (items b).filterMap Item.node? := by
  induction b with
  | nil => rfl
  | cons f b ih =>
    cases f with
    | text s =>
      have hchars : (s.toList.map Item.char).filterMap Item.node? = [] := by
        simp [filterMap_map, Item.node?]
      rw [nodes_cons_text, items_cons_text, filterMap_append, hchars, ih, nil_append]
    | node id => rw [nodes_cons_node, items_cons_node, filterMap_cons, ih]; rfl

theorem toList_writeBranch (w : NodeId → String) (b : Branch) :
    (Document.writeBranch w b).toList = (items b).flatMap (Item.chars w) := by
  induction b with
  | nil => rfl
  | cons f b ih =>
    cases f with
    | text s =>
      have hchars : (s.toList.map Item.char).flatMap (Item.chars w) = s.toList := by
        simp [flatMap_map, Item.chars]
      rw [Document.branch_cons_text, String.toList_append, ih, items_cons_text, flatMap_append, hchars]
    | node id =>
      rw [Document.branch_cons_node, String.toList_append, ih, items_cons_node, flatMap_cons]
      rfl

end Branch

namespace Node

/-- Nodes that agree but for their places and for how text is cut into pieces. -/
structure Alike (n n' : Node) : Prop where
  kind_eq : n'.kind = n.kind
  payload_eq : n'.payload = n.payload
  items_eq : n'.branches.map Branch.items = n.branches.map Branch.items

variable {n n' n'' : Node} {b' : Branch}

theorem branches_grow (hi : i < n.branches.length) : (n.grow i).branches = n.branches := by
  rw [grow, Nat.sub_eq_zero_of_le hi, replicate_zero, append_nil]

namespace Alike

theorem refl (n : Node) : n.Alike n := ⟨rfl, rfl, rfl⟩

section

variable (h : n.Alike n')
include h

theorem trans (h' : n'.Alike n'') : n.Alike n'' :=
  ⟨h'.kind_eq.trans h.kind_eq, h'.payload_eq.trans h.payload_eq, h'.items_eq.trans h.items_eq⟩

theorem length_eq : n'.branches.length = n.branches.length := by
  have := congrArg List.length h.items_eq
  rwa [length_map, length_map] at this

theorem body_eq : n'.body = n.body := by
  rw [body, body, body?, body?, h.payload_eq]

theorem kids_eq : n'.branches.flatMap Branch.nodes = n.branches.flatMap Branch.nodes := by
  have hnodes : ∀ bs : List Branch, bs.flatMap Branch.nodes =
      (bs.map Branch.items).flatMap (List.filterMap Item.node?) := fun bs => by
    rw [flatMap_map]
    exact flatMap_congr fun b _ => b.nodes_eq_filterMap
  rw [hnodes, hnodes, h.items_eq]

theorem references_eq : n'.references = n.references := by
  rw [references, references, h.body_eq, h.kids_eq]

theorem texts_eq (w : NodeId → String) :
    n'.branches.map (Document.writeBranch w) = n.branches.map (Document.writeBranch w) := by
  have htexts : ∀ bs : List Branch, (bs.map (Document.writeBranch w)).map String.toList =
      (bs.map Branch.items).map (·.flatMap (Item.chars w)) := fun bs => by
    rw [map_map, map_map]
    exact map_congr_left fun b _ => b.toList_writeBranch w
  refine map_injective_iff.mpr (fun _ _ => String.toList_injective) ?_
  rw [htexts, htexts, h.items_eq]

theorem setBranch (hi : i < n.branches.length) (hb : b'.items = b.items) :
    (n.setBranch i b).Alike (n'.setBranch i b') := by
  refine ⟨h.kind_eq, h.payload_eq, ?_⟩
  rw [Node.setBranch, Node.setBranch, map_set, map_set, branches_grow hi,
    branches_grow (h.length_eq ▸ hi), h.items_eq, hb]

end

theorem setBranch_self (hi : i < n.branches.length) (hb : b.items = (n.branch i).items) :
    n.Alike (n.setBranch i b) := by
  refine ⟨rfl, rfl, ?_⟩
  rw [Node.setBranch, branches_grow hi, map_set, hb, branch, getD_eq_getElem _ _ hi, ← getElem_map Branch.items,
    set_getElem_self]
  rwa [length_map]

end Alike

theorem setBranch_setBranch (n : Node) (hi : i < n.branches.length) :
    (n.setBranch i b).setBranch i b' = n.setBranch i b' := by
  have hlen : i < (n.setBranch i b).branches.length := by
    rw [length_setBranch]
    exact lt_of_lt_of_le hi (Nat.le_max_left _ _)
  rw [setBranch, branches_grow hlen, setBranch, setBranch, branches_grow hi, set_set]

end Node

namespace Document

variable {d'' : Document} {c y : NodeId}

structure Alike (d d' : Document) : Prop where
  size_eq : d'.size = d.size
  node : ∀ x, (d.node x).Alike (d'.node x)

namespace Alike

theorem refl (d : Document) : d.Alike d := ⟨rfl, fun _ => .refl _⟩

theorem trans (h : d.Alike d') (h' : d'.Alike d'') : d.Alike d'' :=
  ⟨h'.size_eq.trans h.size_eq, fun x => (h.node x).trans (h'.node x)⟩

theorem kind_eq (h : d.Alike d') (x : NodeId) : d'.kind x = d.kind x := (h.node x).kind_eq

theorem kids_eq (h : d.Alike d') (x : NodeId) : d'.kids x = d.kids x := (h.node x).kids_eq

theorem length_eq (h : d.Alike d') (x : NodeId) : (d'.branches x).length = (d.branches x).length :=
  (h.node x).length_eq

theorem putBack (hi : i < (d.branches id).length) (h : (d.setBranch id i []).Alike d')
    (hb : b.items = (d.branch id i).items) : d.Alike (d'.setBranch id i b) := by
  refine ⟨?_, fun x => ?_⟩
  · rw [setBranch, size_modify, h.size_eq, setBranch, size_modify]
  · by_cases hlt : id < d.size
    · have hlt' : id < d'.size := by rwa [h.size_eq, setBranch, size_modify]
      by_cases hx : x = id
      · subst hx
        have hnode := h.node x
        rw [setBranch, modify_self hlt] at hnode
        have hlen : i < ((d.node x).setBranch i []).branches.length := by
          rw [Node.length_setBranch]
          exact lt_of_lt_of_le hi (Nat.le_max_left _ _)
        have hput := hnode.setBranch hlen (rfl : b.items = b.items)
        rw [Node.setBranch_setBranch _ hi] at hput
        rw [setBranch, modify_self hlt']
        exact (Node.Alike.setBranch_self hi hb).trans hput
      · have hnode := h.node x
        rw [setBranch, modify_ne hx] at hnode
        rw [setBranch, modify_ne hx]
        exact hnode
    · have hle := not_lt.mp hlt
      rw [setBranch, modify_of_le hle] at h
      rw [setBranch, modify_of_le (h.size_eq ▸ hle)]
      exact h.node x

end Alike

end Document

namespace Document

variable {m m' : Manner} {n k : Nat} {L L' : List NodeId}

def PlainBelow (d : Document) (x : NodeId) : Prop :=
  ∀ y, Reaches d.refs x y → (d.node y).naming? = none

theorem writeNode_alike (hm : m.Textual) (hs : Shallow d.refs n x) (hs' : Shallow d'.refs k x)
    (hp : d.PlainBelow x) (h : ∀ y, Reaches d.refs x y → (d.node y).Alike (d'.node y))
    (hmm : ∀ y, Reaches d.refs x y → ∀ w, m d w y = m' d w y) :
    d'.writeNode m k x = d.writeNode m' n x := by
  induction n generalizing x k with
  | zero => exact hs.elim
  | succ n ih =>
    obtain ⟨k, rfl⟩ := hs'.exists_succ
    have hself := h x .refl
    have hw : ∀ c ∈ d.refs x, d'.writeNode m k c = d.writeNode m' n c := fun c hc => by
      refine ih (hs c hc) (hs' c ?_) (fun y hy => hp y ((Reaches.child hc).trans hy))
        (fun y hy => h y ((Reaches.child hc).trans hy)) fun y hy =>
          hmm y ((Reaches.child hc).trans hy)
      rw [refs, hself.references_eq]
      exact hc
    have htexts : (d'.branches x).map (writeBranch (d'.writeNode m k)) =
        (d.branches x).map (writeBranch (d.writeNode m' n)) :=
      (hself.texts_eq _).trans (map_congr_left fun b hb => branch_congr fun c hc =>
        hw c (refs_of_branch hb hc))
    have hbody : ∀ c ∈ (d.node x).body.references, d'.writeNode m k c = d.writeNode m' n c :=
      fun c hc => hw c ((d.node x).body_refs_sub hc)
    simp only [writeNode]
    rw [hm hself.kind_eq hself.payload_eq (hp x .refl) htexts hbody, hmm x .refl,
      writeDefault_eq hself.kind_eq hself.payload_eq (hp x .refl) htexts hbody]

section

variable (hm : m.Textual) (hg : d.Grove L) (hg' : d'.Grove L') (hx : x < d.size) (hx' : x < d'.size)
  (hp : d.PlainBelow x) (h : ∀ y, Reaches d.refs x y → (d.node y).Alike (d'.node y))
include hm hg hg' hx hx' hp h

theorem render_alike_of
    (hmm : ∀ y, Reaches d.refs x y → ∀ w, m d w y = m' d w y) : d'.render m x = d.render m' x :=
  writeNode_alike hm (hg.shallow hx) (hg'.shallow hx') hp h hmm

theorem render_alike : d'.render m x = d.render m x :=
  render_alike_of hm hg hg' hx hx' hp h fun _ _ _ => rfl

end

theorem render_textual (hm : m.Textual) (hg : d.Grove L) (hx : x < d.size) (hp : d.PlainBelow x) :
    d.render m x = (m d (d.render m) x).getD (d.writeDefault (d.render m) x) := by
  have hs := hg.shallow hx
  obtain ⟨k, hk⟩ := hs.exists_succ
  have hw : ∀ c ∈ d.refs x, d.writeNode m k c = d.render m c := fun c hc => by
    refine writeNode_alike hm (hg.shallow (hg.lt_of_refs hc)) ?_
      (fun y hy => hp y ((Reaches.child hc).trans hy)) (fun y _ => .refl _) fun _ _ _ => rfl
    rw [hk] at hs
    exact hs c hc
  have htexts : (d.branches x).map (writeBranch (d.writeNode m k)) =
      (d.branches x).map (writeBranch (d.render m)) :=
    map_congr_left fun b hb => branch_congr fun c hc => hw c (refs_of_branch hb hc)
  have hbody : ∀ c ∈ (d.node x).body.references, d.writeNode m k c = d.render m c :=
    fun c hc => hw c ((d.node x).body_refs_sub hc)
  conv_lhs => rw [render, hk, writeNode]
  rw [hm rfl rfl (hp x .refl) htexts hbody, writeDefault_eq rfl rfl (hp x .refl) htexts hbody]

end Document

end Stencil
