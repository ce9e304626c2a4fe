import Stencil.Proofs.Doc.Rebuilding

/-!
# What is met on a walk

A walk goes from a node through its branches, and below a node only if it may enter it. `Met` says which
nodes are met on a walk of any depth, and where no path goes on for ever the walk with as many levels as
there are nodes meets them all (`mem_descendants_iff`).
-/

namespace Stencil

open List

variable {d' : Document} {l : List NodeId} {enter' : NodeId → Bool}

namespace Document

variable {d : Document} {L : List NodeId} {a c id p x : NodeId} {enter : NodeId → Bool}
  {n : Nat}

theorem kids_congr (h : d'.node x = d.node x) : d'.kids x = d.kids x := by
  rw [kids, branches, h]
  rfl

theorem kind_congr (h : d'.node x = d.node x) : d'.kind x = d.kind x := by
  rw [kind, h]
  rfl

theorem mem_kids_of_children (h : c ∈ (d.children x).nodes) : c ∈ d.kids x := by
  rw [children, Node.children] at h
  cases hbs : (d.node x).branches with
  | nil => rw [hbs] at h; cases h
  | cons b bs =>
    rw [hbs] at h
    exact mem_kids.mpr ⟨b, by rw [branches, hbs]; exact mem_cons_self, h⟩

/-- The second node is met on a walk from the first that goes below a node only if `enter` holds
of it. -/
inductive Met (d : Document) (enter : NodeId → Bool) : NodeId → NodeId → Prop where
  | kid {id c : NodeId} : c ∈ d.kids id → Met d enter id c
  | deeper {id c x : NodeId} : c ∈ d.kids id → enter c → Met d enter c x → Met d enter id x

theorem met_of_mem_below (h : x ∈ d.below enter n id) : d.Met enter id x := by
  induction n generalizing id with
  | zero => cases h
  | succ n ih =>
    obtain ⟨b, hb, h⟩ := mem_flatMap.mp h
    obtain ⟨c, hc, h⟩ := mem_flatMap.mp h
    have hkid : c ∈ d.kids id := mem_kids.mpr ⟨b, hb, hc⟩
    rcases mem_cons.mp h with rfl | h
    · exact .kid hkid
    · split_ifs at h with henter
      · exact .deeper hkid henter (ih h)
      · cases h

namespace Met

theorem mem_below (h : d.Met enter id x) (hs : Shallow d.kids n id) : x ∈ d.below enter n id := by
  induction h generalizing n with
  | kid hc =>
    obtain ⟨n, rfl⟩ := hs.exists_succ
    obtain ⟨b, hb, hc⟩ := mem_kids.mp hc
    exact mem_flatMap.mpr ⟨b, hb, mem_flatMap.mpr ⟨_, hc, mem_cons_self⟩⟩
  | deeper hc henter _ ih =>
    obtain ⟨n, rfl⟩ := hs.exists_succ
    have hx := ih (hs _ hc)
    obtain ⟨b, hb, hc⟩ := mem_kids.mp hc
    refine mem_flatMap.mpr ⟨b, hb, mem_flatMap.mpr ⟨_, hc, mem_cons_of_mem _ ?_⟩⟩
    rwa [if_pos henter]

theorem encloses (h : d.Met enter id x) : d.Encloses id x := by
  induction h with
  | kid hc => exact .single hc
  | deeper hc _ _ ih => exact .head hc ih

theorem tail (h : d.Met enter id p) (henter : enter p) (hc : c ∈ d.kids p) : d.Met enter id c := by
  induction h with
  | kid hp => exact .deeper hp henter (.kid hc)
  | deeper hp he _ ih => exact .deeper hp he (ih henter hc)

theorem mono (h : d.Met enter id x) (henter : ∀ y, enter y → enter' y) : d.Met enter' id x := by
  induction h with
  | kid hc => exact .kid hc
  | deeper hc he _ ih => exact .deeper hc (henter _ he) ih

theorem of_encloses (h : d.Encloses id x) (henter : ∀ y, enter y) : d.Met enter id x := by
  induction h with
  | single hc => exact .kid hc
  | tail _ hc ih => exact ih.tail (henter _) hc

theorem owner (h : d.Met enter id x) (hg : d.Grove L) (hx : x ∈ d.kids p) :
    p = id ∨ d.Met enter id p ∧ enter p := by
  induction h with
  | kid hc => exact .inl (hg.owner_eq (d.kids_sub _ hx) (d.kids_sub _ hc))
  | deeper hc henter _ ih =>
    rcases ih hx with rfl | ⟨hp, he⟩
    · exact .inr ⟨.kid hc, henter⟩
    · exact .inr ⟨.deeper hc henter hp, he⟩

theorem of_reaches (h : d.Met enter id x) (hg : d.Grove L) (ha : d.Encloses id a)
    (hr : Reaches d.kids a x) : a = x ∨ d.Met enter id a ∧ enter a := by
  induction hr with
  | refl => exact .inl rfl
  | @tail p x hp hx ih =>
    rcases h.owner hg hx with rfl | ⟨hmet, henter⟩
    · -- the start is not below itself
      obtain ⟨c, hc, hca⟩ := Relation.TransGen.head'_iff.mp ha
      exact absurd ((Reaches.mono d.kids_sub hca).trans (Reaches.mono d.kids_sub hp))
        (hg.not_reaches_mem (d.kids_sub _ hc))
    · rcases ih hmet with rfl | h
      · exact .inr ⟨hmet, henter⟩
      · exact .inr h

end Met

/-- The node is met on a walk that starts with the nodes of a list. -/
inductive MetIn (d : Document) (enter : NodeId → Bool) : List NodeId → NodeId → Prop where
  | member {l : List NodeId} {x : NodeId} : x ∈ l → MetIn d enter l x
  /-- Below one of the list that is entered. -/
  | deeper {l : List NodeId} {a x : NodeId} : a ∈ l → enter a → MetIn d enter (d.kids a) x →
      MetIn d enter l x

theorem metIn_kids_iff : d.MetIn enter (d.kids id) x ↔ d.Met enter id x := by
  constructor
  · intro h
    generalize hl : d.kids id = l at h
    induction h generalizing id with
    | member hx => exact .kid (hl ▸ hx)
    | deeper ha henter _ ih => exact .deeper (hl ▸ ha) henter (ih rfl)
  · intro h
    induction h with
    | kid hc => exact .member hc
    | deeper hc henter _ ih => exact .deeper hc henter ih

theorem Grove.shallow_kids (h : d.Grove L) (hx : x < d.size) : Shallow d.kids d.size x :=
  (h.shallow hx).of_subset fun y _ => d.kids_sub y

theorem mem_descendants_iff {kinds closed : List Kind} (hs : Shallow d.kids d.size id) :
    x ∈ d.descendants id kinds closed ↔
      d.Met (fun y => !d.hasKind y closed) id x ∧ d.kind x ∈ kinds := by
  rw [descendants, walk, mem_filter, hasKind, contains_iff_mem]
  exact and_congr_left fun _ => ⟨met_of_mem_below, fun h => h.mem_below hs⟩

/-- Whether a node is no raw output, so that what is below it is looked at. -/
def isCooked (d : Document) (x : NodeId) : Bool := !d.hasKind x [.rawOutput]

theorem isCooked_iff : d.isCooked x ↔ d.kind x ≠ .rawOutput := by
  simp [isCooked, hasKind]

theorem isCooked_congr {y : NodeId} (h : d'.kind y = d.kind x) : d'.isCooked y = d.isCooked x := by
  rw [isCooked, isCooked, hasKind, hasKind, h]

theorem locateBelow_of_encloses (h : d.Encloses id x) (hs : Shallow d.kids n id) :
    ∃ slot, d.locateBelow x n id = some slot := by
  induction n generalizing id with
  | zero => exact hs.elim
  | succ n ih =>
    obtain ⟨c, hc, hcx⟩ := Relation.TransGen.head'_iff.mp h
    obtain ⟨b, hb, hc'⟩ := mem_kids.mp hc
    obtain ⟨i, hi⟩ := mem_iff_getElem?.mp hb
    obtain ⟨k, hk⟩ := mem_iff_getElem?.mp (Branch.mem_nodes.mp hc')
    rw [← Option.isSome_iff_exists, locateBelow, List.findSome?_isSome_iff]
    refine ⟨(b, i), mk_mem_zipIdx_iff_getElem?.mpr hi, List.findSome?_isSome_iff.mpr
      ⟨(.node c, k), mk_mem_zipIdx_iff_getElem?.mpr hk, ?_⟩⟩
    dsimp only
    split_ifs with hcx'
    · rfl
    · rcases Relation.reflTransGen_iff_eq_or_transGen.mp hcx with rfl | hcx
      · exact absurd rfl hcx'
      · exact Option.isSome_iff_exists.mpr (ih hcx (hs c hc))

end Document

end Stencil
