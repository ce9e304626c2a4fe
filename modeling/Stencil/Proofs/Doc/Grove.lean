import Stencil.Proofs.Doc.Ownership

/-!
# Groves

While a document is rebuilt, some nodes are in no slot: they are held by the operation that works on it.
`Grove d loose` says that the slots of the document together with the loose nodes hold no node twice,
and that nothing leads back to itself. So the document is a collection of trees, one below each loose
node, and trees below different loose nodes are apart (`Grove.apart`).

What an operation does not hold it does not change (`Frame`), and then neither is what is written for it
(`Frame.render_eq`).
-/

namespace Stencil

open List Node

variable {m : Manner}

namespace Document

variable {d d' d'' : Document} {a b c x y z : NodeId} {L L' A B : List NodeId} {f : Node → Node}

/-- No node is both in two slots or loose and in a slot, or twice loose; all are in the document;
and no path goes on for ever. -/
structure Grove (d : Document) (loose : List NodeId) : Prop where
  nodup : (d.slots ++ loose).Nodup
  lt_size : ∀ x ∈ d.slots ++ loose, x < d.size
  grounded : ∀ x, ∃ n, Shallow d.refs n x

namespace Grove

section

variable (h : d.Grove L)
include h

theorem perm (hp : L.Perm L') : d.Grove L' where
  nodup := (hp.append_left d.slots).nodup_iff.mp h.nodup
  lt_size x hx := h.lt_size x ((hp.append_left d.slots).mem_iff.mpr hx)
  grounded := h.grounded

theorem sublist (hs : L'.Sublist L) : d.Grove L' where
  nodup := h.nodup.sublist ((List.Sublist.refl _).append hs)
  lt_size x hx := h.lt_size x (((List.Sublist.refl _).append hs).subset hx)
  grounded := h.grounded

theorem lt_of_mem (hx : x ∈ L) : x < d.size :=
  h.lt_size x (mem_append_right _ hx)

omit h in
theorem lt_head (h : d.Grove (x :: L)) : x < d.size :=
  h.lt_of_mem mem_cons_self

theorem lt_of_refs (hc : c ∈ d.refs x) : c < d.size :=
  h.lt_size c (mem_append_left _ (mem_slots.mpr ⟨x, hc⟩))

theorem lt_of_reaches (hx : x < d.size) (hr : Reaches d.refs x y) : y < d.size := by
  rcases Relation.ReflTransGen.cases_tail hr with rfl | ⟨p, -, hc⟩
  · exact hx
  · exact h.lt_of_refs hc

theorem not_mem_refs (hx : x ∈ L) : x ∉ d.refs y := fun hc =>
  (nodup_append.mp h.nodup).2.2 x (mem_slots.mpr ⟨y, hc⟩) x hx rfl

theorem eq_of_reaches (hx : x ∈ L) (hr : Reaches d.refs y x) : y = x := by
  rcases Relation.ReflTransGen.cases_tail hr with rfl | ⟨p, -, hc⟩
  · rfl
  · exact absurd hc (h.not_mem_refs hx)

end

theorem not_reaches_head (h : d.Grove (x :: L)) (hy : y ∈ L) : ¬ Reaches d.refs y x := fun hr => by
  obtain rfl := h.eq_of_reaches mem_cons_self hr
  exact (nodup_cons.mp h.nodup.of_append_right).1 hy

section

variable (h : d.Grove L)
include h

theorem owner_eq (hx : c ∈ d.refs x) (hy : c ∈ d.refs y) : x = y :=
  owner_eq_of_nodup (nodup_append.mp h.nodup).1 hx hy

theorem nodup_refs (x : NodeId) : (d.refs x).Nodup := by
  by_cases hlt : x < d.size
  · exact (nodup_flatMap.mp (nodup_append.mp h.nodup).1).1 x (mem_range.mpr hlt)
  · rw [refs_of_le (not_lt.mp hlt)]
    exact nodup_nil

theorem reaches_total (ha : Reaches d.refs a z) (hb : Reaches d.refs b z) :
    Reaches d.refs a b ∨ Reaches d.refs b a := by
  induction ha with
  | refl => exact .inr hb
  | @tail p z ha hz ih =>
    rcases Relation.ReflTransGen.cases_tail hb with rfl | ⟨q, hq, hqz⟩
    · exact .inl (ha.tail hz)
    · obtain rfl := h.owner_eq hz hqz
      exact ih hq

theorem apart (ha : a ∈ L) (hb : b ∈ L) (hab : a ≠ b) (haz : Reaches d.refs a z) :
    ¬ Reaches d.refs b z := by
  intro hbz
  rcases h.reaches_total haz hbz with hr | hr
  · exact hab (h.eq_of_reaches hb hr)
  · exact hab (h.eq_of_reaches ha hr).symm

theorem shallow (hx : x < d.size) : Shallow d.refs d.size x := by
  obtain ⟨n, hn⟩ := h.grounded x
  exact hn.of_lt fun y hy => h.lt_of_reaches hx hy

theorem not_reaches_mem (hc : c ∈ d.refs x) : ¬ Reaches d.refs c x := by
  obtain ⟨n, hn⟩ := h.grounded x
  exact hn.not_reaches hc

theorem uniqueOwner (hx : x < d.size) : d.UniqueOwner x where
  lt_size hr := h.lt_of_reaches hx hr
  top_free hr hc := h.not_reaches_mem hc hr
  nodup _ := h.nodup_refs _
  owner_eq _ _ hp hq := h.owner_eq hp hq

theorem siblings_apart (ha : a ∈ d.refs x) (hb : b ∈ d.refs x) (hab : a ≠ b)
    (haz : Reaches d.refs a z) : ¬ Reaches d.refs b z :=
  (h.uniqueOwner (lt_of_ref ha)).apart .refl ha hb hab haz

end

end Grove

theorem flatMap_range_perm {n : Nat} {f g : NodeId → List NodeId} (hx : x < n)
    (h : ∀ y, y ≠ x → g y = f y) :
    ((List.range n).flatMap g ++ f x).Perm ((List.range n).flatMap f ++ g x) := by
  obtain ⟨l, r, hl⟩ := append_of_mem (mem_range.mpr hx)
  have hn : (l ++ x :: r).Nodup := hl ▸ nodup_range
  have hx' : x ∉ l ∧ x ∉ r := by
    rw [nodup_append, nodup_cons] at hn
    exact ⟨fun hm => hn.2.2 x hm x mem_cons_self rfl, hn.2.1.1⟩
  have hgl : l.flatMap g = l.flatMap f :=
    flatMap_congr fun y hy => h y fun heq => hx'.1 (heq ▸ hy)
  have hgr : r.flatMap g = r.flatMap f :=
    flatMap_congr fun y hy => h y fun heq => hx'.2 (heq ▸ hy)
  rw [hl, flatMap_append, flatMap_cons, flatMap_append, flatMap_cons, hgl, hgr]
  grind

theorem refs_modify_ne (h : x ≠ a) : (d.modify a f).refs x = d.refs x := by
  rw [refs, modify_ne h]
  rfl

theorem refs_modify_self (h : a < d.size) : (d.modify a f).refs a = (f (d.node a)).references := by
  rw [refs, modify_self h]

theorem slots_modify_perm (hx : x < d.size) : ((d.modify x f).slots ++ d.refs x).Perm
    (d.slots ++ (f (d.node x)).references) := by
  rw [slots, slots, size_modify, ← refs_modify_self hx]
  exact flatMap_range_perm hx fun y hy => refs_modify_ne hy

theorem grounded_modify (h : ∀ y, ∃ n, Shallow d.refs n y) (hA : ∀ a ∈ A, ¬ Reaches d.refs a x)
    (hsub : ∀ c ∈ (f (d.node x)).references, c ∈ d.refs x ∨ c ∈ A) (y : NodeId) :
    ∃ n, Shallow (d.modify x f).refs n y := by
  by_cases hx : x < d.size
  · -- below a new child nothing has changed
    have hnew : ∀ a ∈ A, ∃ n, Shallow (d.modify x f).refs n a := by
      intro a ha
      obtain ⟨n, hn⟩ := h a
      refine ⟨n, hn.of_subset fun z hz => ?_⟩
      rw [refs_modify_ne (by rintro rfl; exact hA a ha hz)]
      exact List.Subset.refl _
    obtain ⟨m, hm⟩ : ∃ m, ∀ a ∈ A, Shallow (d.modify x f).refs m a := by
      clear hA hsub
      induction A with
      | nil => exact ⟨0, fun a ha => by cases ha⟩
      | cons a A ih =>
        obtain ⟨⟨n, hn⟩, hnew⟩ := forall_mem_cons.mp hnew
        obtain ⟨m, hm⟩ := ih hnew
        refine ⟨n + m, forall_mem_cons.mpr ⟨hn.mono (by omega), fun b hb => ?_⟩⟩
        exact (hm b hb).mono (by omega)
    obtain ⟨n, hn⟩ := h y
    refine ⟨n + m, ?_⟩
    induction n generalizing y with
    | zero => exact hn.elim
    | succ n ih =>
      rw [Nat.succ_add]
      intro c hc
      by_cases hyx : y = x
      · subst hyx
        rw [refs_modify_self hx] at hc
        rcases hsub c hc with hc | hc
        · exact ih c (hn c hc)
        · exact (hm c hc).mono (by omega)
      · rw [refs_modify_ne hyx] at hc
        exact ih c (hn c hc)
  · rw [modify_of_le (not_lt.mp hx)]
    exact h y

namespace Grove

theorem modify (h : d.Grove (A ++ L)) (hx : x < d.size)
    (hperm : ((f (d.node x)).references ++ B).Perm ((d.node x).references ++ A))
    (hA : ∀ a ∈ A, ¬ Reaches d.refs a x) : (d.modify x f).Grove (B ++ L) := by
  have hslots : ((d.modify x f).slots ++ (B ++ L)).Perm (d.slots ++ (A ++ L)) := by
    have hp := slots_modify_perm (f := f) hx
    rw [perm_iff_count] at hp hperm ⊢
    intro e
    have h1 := hp e
    have h2 := hperm e
    simp only [count_append, refs] at h1 h2 ⊢
    omega
  refine ⟨hslots.nodup_iff.mpr h.nodup, fun y hy => ?_, grounded_modify h.grounded hA fun c hc => ?_⟩
  · rw [size_modify]
    exact h.lt_size y (hslots.mem_iff.mp hy)
  · have hc' := hperm.mem_iff.mp (mem_append_left B hc)
    exact mem_append.mp hc'

theorem modify_same (h : d.Grove L) (hrefs : (f (d.node x)).references = (d.node x).references) :
    (d.modify x f).Grove L := by
  by_cases hx : x < d.size
  · exact modify (A := []) (B := []) h hx (by rw [hrefs]) fun a ha => by cases ha
  · rw [modify_of_le (not_lt.mp hx)]
    exact h

theorem create (h : d.Grove L) (kind : Kind) (place : Place) :
    (d.create kind place).2.Grove (d.size :: L) := by
  have hrefs : (d.create kind place).2.refs = d.refs := by
    funext y
    by_cases hy : y = d.size
    · rw [hy, refs_of_le (le_refl _), refs, create_self]
      rfl
    · rw [refs, node_create_ne hy]
      rfl
  have hslots : (d.create kind place).2.slots = d.slots := by
    rw [slots, slots, size_create, hrefs, range_succ, flatMap_append,
      flatMap_singleton, refs_of_le (le_refl _), append_nil]
  refine ⟨?_, fun y hy => ?_, by rw [hrefs]; exact h.grounded⟩
  · rw [hslots]
    refine (perm_middle.nodup_iff).mpr (nodup_cons.mpr ⟨fun hmem => ?_, h.nodup⟩)
    exact lt_irrefl _ (h.lt_size _ hmem)
  · rw [hslots] at hy
    rw [size_create]
    rcases mem_cons.mp (perm_middle.mem_iff.mp hy) with rfl | hy
    · exact Nat.lt_succ_self _
    · exact Nat.lt_succ_of_lt (h.lt_size y hy)

end Grove

structure Frame (d d' : Document) (kept : List NodeId) : Prop where
  size_le : d.size ≤ d'.size
  node_eq : ∀ y ∈ kept, ∀ x, Reaches d.refs y x → d'.node x = d.node x

namespace Frame

theorem refl (d : Document) (L : List NodeId) : d.Frame d L :=
  ⟨le_refl _, fun _ _ _ _ => rfl⟩

theorem mono (h : d.Frame d' L) (hs : L' ⊆ L) : d.Frame d' L' :=
  ⟨h.size_le, fun y hy => h.node_eq y (hs hy)⟩

theorem node_head (h : d.Frame d' (x :: L)) : d'.node x = d.node x :=
  h.node_eq x mem_cons_self x .refl

theorem refs_eq (h : d.Frame d' L) (hy : y ∈ L) (hr : Reaches d.refs y x) : d'.refs x = d.refs x := by
  rw [refs, h.node_eq y hy x hr]
  rfl

theorem reaches (h : d.Frame d' L) (hy : y ∈ L) (hr : Reaches d.refs y x) : Reaches d'.refs y x :=
  hr.congr fun _ hz => h.refs_eq hy hz

theorem trans (h : d.Frame d' L) (h' : d'.Frame d'' L) : d.Frame d'' L :=
  ⟨le_trans h.size_le h'.size_le, fun y hy x hr => by
    rw [h'.node_eq y hy x (h.reaches hy hr), h.node_eq y hy x hr]⟩

theorem modify (hx : ∀ y ∈ L, ¬ Reaches d.refs y x) : d.Frame (d.modify x f) L :=
  ⟨by rw [size_modify], fun y hy z hz => modify_ne (by rintro rfl; exact hx y hy hz)⟩

theorem create (hL : ∀ y ∈ L, y < d.size) (h : d.Grove L') (kind : Kind) (place : Place) :
    d.Frame (d.create kind place).2 L :=
  ⟨by rw [size_create]; exact Nat.le_succ _, fun y hy x hr =>
    create_of_lt (h.lt_of_reaches (hL y hy) hr)⟩

end Frame

theorem Grove.takeIn (h : d.Grove (x :: (A ++ L)))
    (hperm : (f (d.node x)).references.Perm ((d.node x).references ++ A)) :
    (d.modify x f).Grove (x :: L) ∧ d.Frame (d.modify x f) (A ++ L) ∧
      d.Frame (d.modify x f) ((d.modify x f).refs x) := by
  have hlt : x < d.size := h.lt_head
  refine ⟨?_, .modify fun y hy => h.not_reaches_head hy, .modify fun y hy => ?_⟩
  · refine Grove.modify (B := []) (h.perm perm_middle.symm) hlt ?_ fun a ha =>
      h.not_reaches_head (mem_append_left _ ha)
    rw [append_nil]
    exact hperm
  · rw [refs_modify_self hlt] at hy
    rcases mem_append.mp (hperm.mem_iff.mp hy) with hy | hy
    · exact h.not_reaches_mem hy
    · exact h.not_reaches_head (mem_append_left _ hy)

def Plain (d : Document) : Prop := ∀ x, (d.node x).naming? = none

theorem Plain.uses_eq (h : d.Plain) : d.uses = d.refs := by
  funext x
  exact uses_eq_refs (h x)

theorem Grove.render_eq (h : d.Grove L) (hm : Manner.Local m) (hp : d.Plain) (hx : x < d.size) :
    d.render m x = (m d (d.render m) x).getD (d.writeDefault (d.render m) x) := by
  refine Document.render_eq hm ?_
  rw [hp.uses_eq]
  exact h.shallow hx

theorem Grove.sourceOf_eq (h : d.Grove L) (hp : d.Plain) (hx : x < d.size) :
    d.sourceOf x = d.writeDefault d.sourceOf x :=
  h.render_eq Manner.local_source hp hx

theorem Frame.render_eq (h : d.Frame d' L) (hm : Manner.Local m) (hg : d.Grove L')
    (hp : d.Plain) (hy : y ∈ L) (hlt : y < d.size) (hr : Reaches d.refs y x) :
    d'.render m x = d.render m x := by
  have hx : x < d.size := hg.lt_of_reaches hlt hr
  have hs : Shallow d.uses d.size x := by
    rw [hp.uses_eq]
    exact hg.shallow hx
  have hnode : ∀ z, Reaches d.uses x z → d'.node z = d.node z := by
    intro z hz
    rw [hp.uses_eq] at hz
    exact h.node_eq y hy z (hr.trans hz)
  refine render_congr hm hs ?_ hnode
  refine (hs.mono h.size_le).of_subset fun z hz => ?_
  rw [uses, hnode z hz]
  exact List.Subset.refl _

theorem Frame.sourceOf_eq (h : d.Frame d' L) (hg : d.Grove L') (hp : d.Plain) (hy : y ∈ L)
    (hlt : y < d.size) (hr : Reaches d.refs y x) : d'.sourceOf x = d.sourceOf x :=
  h.render_eq Manner.local_source hg hp hy hlt hr

theorem Frame.render_refs_eq (h : d.Frame d' (d'.refs x)) (hm : Manner.Local m)
    (hg : d.Grove L) (hp : d.Plain) (hg' : d'.Grove L') (hsize : d'.size = d.size)
    (hc : c ∈ d'.refs x) : d'.render m c = d.render m c :=
  h.render_eq hm hg hp hc (hsize ▸ hg'.lt_of_refs hc) .refl

theorem ofSource_eq (path s : String) : ofSource path s =
    ⟨#[{ kind := .root, place := Place.startOf path,
         branches := [if s = "" then [] else [.text s]] }]⟩ := by
  by_cases h : s = ""
  · simp [ofSource, appendText, h, create]
  · simp [ofSource, appendText, append, modify, h, create, setBranch_zero, branch_zero,
      Node.children, Branch.push]

theorem node_ofSource (path s : String) (x : NodeId) :
    ((ofSource path s).node x).references = [] ∧ ((ofSource path s).node x).payload = .none := by
  rw [ofSource_eq]
  cases x with
  | zero =>
    by_cases h : s = "" <;> simp [node, Node.references, Node.body, Node.body?, h]
  | succ x => simp [node, Node.references, Node.body, Node.body?]

theorem length_ofSource (path s : String) (x : NodeId) :
    ((ofSource path s).node x).branches.length = 1 := by
  rw [ofSource_eq]
  cases x with
  | zero => rfl
  | succ x => simp [node]

theorem grove_ofSource (path s : String) : (ofSource path s).Grove [root] := by
  have hslots : (ofSource path s).slots = [] :=
    flatMap_eq_nil_iff.mpr fun x _ => (node_ofSource path s x).1
  refine ⟨by rw [hslots]; exact nodup_singleton _, ?_, fun x => ⟨1, fun c hc => ?_⟩⟩
  · rw [hslots, ofSource_eq]
    intro x hx
    rw [mem_singleton.mp hx]
    exact Nat.one_pos
  · rw [refs, (node_ofSource path s x).1] at hc
    cases hc

theorem plain_ofSource (path s : String) : (ofSource path s).Plain := fun x => by
  rw [Node.naming?, (node_ofSource path s x).2]

theorem source_ofSource (path s : String) : (ofSource path s).source = s := by
  have hg := grove_ofSource path s
  rw [source, hg.sourceOf_eq (plain_ofSource path s) hg.lt_head,
    write_of_none (node_ofSource path s root).2, ofSource_eq]
  by_cases h : s = "" <;> simp [writeBranches, branches, node, kind, Kind.delimiters, h]

end Document

end Stencil
