import Stencil.Proofs.Doc.Enclave
import Stencil.Proofs.Template.Tracing

/-!
# Passes over templates spare enclaves

The passes over the tags of a template look for them outside of raw output. Most of them change what
they find, or put something in its place, and so **keep enclaves intact**; there is a lemma for each.
-/

namespace Stencil

open Document List
open Enclave (admitsAll_text admits_outside)

variable {d : Document} {L : List NodeId} {k : Kind}

namespace Template

variable {e : Enclave} {x : NodeId}

theorem not_inside_nodesOf {kinds : List Kind} (h : e.Intact d)
    (hkinds : Kind.rawOutput ∉ kinds) (hx : x ∈ nodesOf d kinds) : ¬ e.inside x :=
  h.not_inside_of_descendant e.not_inside_root (mem_singleton_self _) hkinds hx

theorem substituteVariables_intact (values : List (String × String)) (h : e.Intact d) :
    e.Intact (substituteVariables values d) := by
  refine Enclave.Intact.foldl h fun d1 h1 x hx => ?_
  have hout := not_inside_nodesOf h (by decide) hx
  cases values.lookup (variableName d1 x) with
  | none => exact h1
  | some value => exact (h1.setKind hout _).setChildren hout (admitsAll_text value)

theorem expandCall_intact {definitions : List NodeId} {call : NodeId} (hg : d.Grove L)
    (h : e.Intact d) (hcall : ¬ e.inside call) : e.Intact (expandCall definitions d call) := by
  rw [expandCall]
  split
  · exact h
  · next definition _ =>
    obtain ⟨-, hgrown, hnew⟩ := hg.duplicateBranch (lt_of_child hg definition)
    generalize d.duplicateBranch (d.children definition) = copied at hgrown hnew
    have h1 := h.grown hgrown
    have hnode : ¬ e.inside copied.2.size := h1.not_inside_of_le (le_refl _)
    have h2 := (h1.create .expanded (d.place call)).setChildren hnode fun c hc =>
      admits_outside (h.not_inside_of_le (hnew c hc))
    exact h2.replaceNode hcall (forall_mem_singleton.mpr (admits_outside hnode))

theorem expandMacros_intact (hg : d.Grove (root :: L)) (h : e.Intact d) :
    e.Intact (expandMacros d) := by
  refine Enclave.Intact.removeNodes ?_ root fun x hx => not_inside_nodesOf h (by decide) hx
  exact (hg.sustained_foldl_with (I := e.Intact) (fun hx _ hg' h' => ⟨expandCall_sustained hg',
    expandCall_intact hg' h' (not_inside_nodesOf h (by decide) hx)⟩) h).2

theorem makeElements_intact (place : Place) (elements : List String) (h : e.Intact d) :
    e.Intact (makeElements place elements d).2 ∧
      e.AdmitsAll (makeElements place elements d).1 := by
  induction elements generalizing d with
  | nil => exact ⟨h, Enclave.admitsAll_nil⟩
  | cons element more ih =>
    have hnode := h.not_inside_of_le (le_refl d.size)
    obtain ⟨hmore, hadmits⟩ := ih ((h.create .tagElement place).appendText hnode element)
    refine ⟨hmore, ?_⟩
    rw [makeElements]
    dsimp only
    refine forall_mem_cons.mpr ⟨admits_outside hnode, ?_⟩
    split_ifs
    · exact Enclave.admitsAll_nil
    · exact hadmits

theorem groupLoads_intact (h : e.Intact d) : e.Intact (groupLoads d) := by
  rw [groupLoads]
  have hout : ∀ x ∈ (nodesOf d [.loadTag]).filter (!isFutureLoad d ·), ¬ e.inside x := fun x hx =>
    not_inside_nodesOf h (by decide) (mem_of_mem_filter hx)
  cases hloads : (nodesOf d [.loadTag]).filter (!isFutureLoad d ·) with
  | nil => exact h
  | cons first others =>
    rw [hloads] at hout
    have hfirst := hout first mem_cons_self
    obtain ⟨hmake, hadmits⟩ := makeElements_intact
      ((d.removeNodes root (first :: others)).place first)
      ("load" :: ((first :: others).flatMap fun id => (elements d id).drop 1).eraseDups)
      (h.removeNodes root hout)
    exact (hmake.setChildren hfirst hadmits).prepend e.not_inside_root
      (forall_mem_singleton.mpr (admits_outside hfirst))

theorem removeComments_intact (h : e.Intact d) : e.Intact (removeComments d) :=
  h.removeNodes root fun _ hx => not_inside_nodesOf h (by decide) hx

end Template

namespace Document

variable {id : NodeId} {f : Node → Node} {ks : List Kind}

def HasKinds (d : Document) (ks : List Kind) : Prop := ∀ x, d.kind x ∈ ks

namespace HasKinds

section

variable (h : d.HasKinds ks)
include h

theorem modify (hf : (f (d.node id)).kind ∈ ks) : (d.modify id f).HasKinds ks := by
  intro x
  rcases node_modify_cases d id f x with heq | ⟨-, -, heq⟩ <;> rw [kind, heq]
  · exact h x
  · exact hf

theorem create (hk : k ∈ ks) (place : Place) : (d.create k place).2.HasKinds ks := by
  intro x
  by_cases hx : x = d.size
  · rwa [hx, kind, create_self]
  · rw [kind, node_create_ne hx]
    exact h x

theorem setBranch {b : Branch} {i : Nat} : (d.setBranch id i b).HasKinds ks :=
  h.modify (h id)

theorem setChildren (id : NodeId) (b : Branch) : (d.setChildren id b).HasKinds ks :=
  h.modify (h id)

theorem foldl {α : Type} {g : Document → α → Document}
    (hg : ∀ {d : Document} (a : α), d.HasKinds ks → (g d a).HasKinds ks) (l : List α) :
    (l.foldl g d).HasKinds ks :=
  List.foldlRecOn (motive := fun d => HasKinds d ks) l g h fun _ h a _ => hg a h

end

theorem rebuild {change : NodeId → Document → List Fragment × Document}
    (hchange : ∀ x {d : Document}, d.HasKinds ks → (change x d).2.HasKinds ks) (h : d.HasKinds ks)
    (n : Nat) (id : NodeId) : (d.rebuild change n id).HasKinds ks :=
  rebuild_induction (B := fun _ => True) trivial (fun _ _ _ => trivial)
    (fun h _ => h.setBranch) hchange h

theorem removeNodes (h : d.HasKinds ks) (id : NodeId) (removed : List NodeId) :
    (d.removeNodes id removed).HasKinds ks := by
  rw [Document.removeNodes]
  split_ifs
  · exact h
  · exact h.rebuild (fun _ _ h => h) _ _

theorem collapseKind (h : d.HasKinds ks) (id : NodeId) (k : Kind) :
    (d.collapseKind id k).HasKinds ks := by
  refine h.rebuild (fun x d h => ?_) _ _
  split_ifs
  · exact h.setChildren _ _
  · exact h

theorem duplicate (h : d.HasKinds ks) (id : NodeId) : (d.duplicate id).2.HasKinds ks := by
  intro x
  by_cases hx : x < d.size
  · rw [kind, Document.duplicate, node_adopt_of_lt hx]
    exact h x
  · by_cases hlt : x - d.size < (d.reached id).length
    · obtain ⟨i, rfl⟩ := Nat.exists_eq_add_of_le (not_lt.mp hx)
      rw [Nat.add_sub_cancel_left] at hlt
      rw [kind, Document.duplicate, node_adopt_add hlt]
      exact h _
    · have hout := h x
      rw [kind, node_of_le (not_lt.mp hx)] at hout
      have hle : d.size + (d.reached id).length ≤ x :=
        (Nat.le_sub_iff_add_le' (not_lt.mp hx)).mp (not_lt.mp hlt)
      rwa [kind, Document.duplicate, node_of_le (by rwa [size_adopt])]

theorem duplicateBranch (h : d.HasKinds ks) (b : Branch) : (d.duplicateBranch b).2.HasKinds ks :=
  d.duplicateBranch_induction (I := fun _ e => e.HasKinds ks) h (fun _ hI => hI) fun _ hI => hI.duplicate _

end HasKinds

end Document

namespace Template

/-- A template that has been put together, before its markup is read. -/
structure Composed (d : Document) : Prop extends
    Sourced (fun _ _ => True) (fun _ => True) d where
  hasKinds : d.HasKinds Kind.ofTemplates

namespace Composed

section

variable (h : Composed d)
include h

theorem templated : d.Templated where
  grove := h.grove
  plain x := by
    by_cases hx : x < d.size
    · exact (h.traced x hx).plain
    · rw [node_of_le (not_lt.mp hx)]
      rfl
  root_kind := h.root_kind
  kind_mem := h.hasKinds

theorem substituteVariables (values : List (String × String)) :
    Composed (substituteVariables values d) := by
  refine ⟨h.toSourced.substituteVariables fun _ _ _ => trivial, ?_⟩
  refine h.hasKinds.foldl (fun {d'} x h' => ?_) _
  cases values.lookup (variableName d' x) with
  | none => exact h'
  | some value =>
    exact (h'.modify (show Kind.expanded ∈ Kind.ofTemplates by decide)).setChildren _ _

theorem collapseKind (hk : k ∈ Kind.holders) : Composed (d.collapseKind root k) :=
  ⟨h.toSourced.collapseKind hk, h.hasKinds.collapseKind root k⟩

theorem removeNodes (removed : List NodeId) : Composed (d.removeNodes root removed) :=
  ⟨h.toSourced.removeNodes removed, h.hasKinds.removeNodes root removed⟩

theorem resolveDebug (debug : Bool) : Composed (resolveDebug debug d) := by
  rw [Template.resolveDebug]
  split_ifs
  · exact h.collapseKind (by decide)
  · exact h.removeNodes _

theorem expandMacros : Composed (expandMacros d) := by
  refine ⟨h.toSourced.expandMacros, (h.hasKinds.foldl (fun {d} call h => ?_) _).removeNodes root _⟩
  rw [expandCall]
  split
  · exact h
  · next definition _ =>
    have hset := ((h.duplicateBranch (d.children definition)).create
      (show Kind.expanded ∈ Kind.ofTemplates by decide) (d.place call)).setChildren
      (d.duplicateBranch (d.children definition)).2.size (d.duplicateBranch (d.children definition)).1
    dsimp only
    rw [replaceNode]
    split
    · exact hset
    · exact hset.setBranch

end

end Composed

end Template

end Stencil
