import Stencil.Proofs.Doc.Writing

/-!
# Piles

While a branch is rebuilt, some nodes are open: what comes next goes into the innermost one. A pile
holds these nodes, each with what it holds so far, and what stands outside of all of them. What is
added to a pile comes last in its text (`Pile.text_add`), whatever is open.
-/

namespace Stencil

open Document List

open Document (writeBranch)

/-- Nodes that are open and what they hold, and what stands outside of them. -/
structure Pile where
  /-- The open nodes, the innermost first. What a node holds is in reverse. -/
  opened : List (NodeId × Branch)
  /-- What stands outside of the open nodes, in reverse. -/
  out : Branch

namespace Pile

variable {head head' write write' : NodeId → String}

/-- Adds a fragment to the innermost open node, or to what stands outside if none is open. -/
def add (p : Pile) (f : Fragment) : Pile :=
  match p.opened with
  | (x, b) :: opened => { p with opened := (x, b.stack f) :: opened }
  | [] => { p with out := p.out.stack f }

def nodes (p : Pile) : List NodeId :=
  p.opened.flatMap (fun t => t.1 :: t.2.nodes) ++ p.out.nodes

/-- What is written so far for open nodes: `head` of each and what it holds. -/
def openedText (head write : NodeId → String) : List (NodeId × Branch) → String
  | [] => ""
  | (x, b) :: opened => openedText head write opened ++ head x ++ writeBranch write b.reverse

def text (head write : NodeId → String) (p : Pile) : String :=
  writeBranch write p.out.reverse ++ openedText head write p.opened

theorem opened_add (p : Pile) (f : Fragment) : (p.add f).opened.map (·.1) = p.opened.map (·.1) := by
  rw [add]
  split
  case h_1 x b opened h => rw [h]; rfl
  case h_2 h => rfl

theorem nodes_add_text (p : Pile) (s : String) : (p.add (.text s)).nodes = p.nodes := by
  rw [add]
  split
  case h_1 x b opened h => simp [nodes, h]
  case h_2 h => simp [nodes, h]

theorem nodes_add_node (p : Pile) (id : NodeId) : (p.add (.node id)).nodes.Perm (id :: p.nodes) := by
  rw [add]
  split
  case h_1 x b opened h =>
    simp only [nodes, h, flatMap_cons, Branch.nodes_stack_node, cons_append]
    exact List.Perm.swap _ _ _
  case h_2 h =>
    simp only [nodes, h, flatMap_nil, nil_append, Branch.nodes_stack_node]
    exact List.Perm.refl _

theorem text_add (p : Pile) (f : Fragment) :
    (p.add f).text head write = p.text head write ++ writeBranch write [f] := by
  rw [add]
  split
  case h_1 x b opened h =>
    simp only [text, h, openedText, writeBranch_stack, String.append_assoc]
  case h_2 h =>
    simp only [text, h, openedText, writeBranch_stack, String.append_empty]

theorem openedText_congr {opened : List (NodeId × Branch)}
    (hhead : ∀ x ∈ opened.map (·.1), head' x = head x)
    (hwrite : ∀ x ∈ opened.flatMap (fun t => t.1 :: t.2.nodes), write' x = write x) :
    openedText head' write' opened = openedText head write opened := by
  induction opened with
  | nil => rfl
  | cons t opened ih =>
    obtain ⟨x, b⟩ := t
    simp only [map_cons, forall_mem_cons] at hhead
    simp only [flatMap_cons, cons_append, forall_mem_cons, forall_mem_append]
      at hwrite
    obtain ⟨-, hb, hopened⟩ := hwrite
    rw [openedText, openedText, ih hhead.2 hopened, hhead.1]
    congr 1
    exact branch_congr fun c hc => hb c (by simpa using hc)

theorem text_congr {p : Pile} (hhead : ∀ x ∈ p.opened.map (·.1), head' x = head x)
    (hwrite : ∀ x ∈ p.nodes, write' x = write x) : p.text head' write' = p.text head write := by
  rw [nodes, forall_mem_append] at hwrite
  rw [text, text, openedText_congr hhead hwrite.1]
  congr 1
  exact branch_congr fun c hc => hwrite.2 c (by simpa using hc)

theorem mem_nodes_of_opened {p : Pile} {x : NodeId} (h : x ∈ p.opened.map (·.1)) : x ∈ p.nodes := by
  obtain ⟨t, ht, rfl⟩ := mem_map.mp h
  exact mem_append_left _ (mem_flatMap.mpr ⟨t, ht, mem_cons_self⟩)

end Pile

end Stencil
