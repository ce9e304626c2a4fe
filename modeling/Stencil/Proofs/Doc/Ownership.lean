import Stencil.Proofs.Doc.Store

/-!
# Owners

A node refers to others from its slots: the fragments of its branches and of its opening, its
markers and its closing. `UniqueOwner d top` says that below `top` every node has one slot. Then
there is one way down to each node (`UniqueOwner.descent_unique`), no way down meets a node twice,
and what is reached from two children of a node is apart.
-/

namespace Stencil

open List

variable {d : Document} {c id p top x : NodeId}

namespace Document

def kids (d : Document) (id : NodeId) : List NodeId := (d.branches id).flatMap Branch.nodes

theorem mem_kids :
    c ∈ d.kids id ↔ ∃ b ∈ d.branches id, c ∈ b.nodes := mem_flatMap

theorem kids_sublist_refs (d : Document) (id : NodeId) : (d.kids id).Sublist (d.refs id) :=
  ((sublist_append_right _ _).trans (sublist_append_left _ _))

theorem kids_sub (d : Document) (id : NodeId) : d.kids id ⊆ d.refs id :=
  (d.kids_sublist_refs id).subset

/-- The second node is somewhere in the branches of the first. -/
abbrev Encloses (d : Document) : NodeId → NodeId → Prop :=
  Relation.TransGen fun p c => c ∈ d.kids p

theorem reaches_of_enc (h : d.Encloses p c) : Reaches d.refs p c :=
  Reaches.mono d.kids_sub h.to_reflTransGen

theorem encloses_of_below {enter : NodeId → Bool} {levels : Nat}
    (h : x ∈ d.below enter levels id) : d.Encloses id x := by
  induction levels generalizing id with
  | zero => cases h
  | succ levels ih =>
    obtain ⟨b, hb, h⟩ := mem_flatMap.mp h
    obtain ⟨c, hc, h⟩ := mem_flatMap.mp h
    have hkid : c ∈ d.kids id := mem_kids.mpr ⟨b, hb, hc⟩
    rcases mem_cons.mp h with rfl | h
    · exact .single hkid
    · split_ifs at h
      · exact .head hkid (ih h)
      · cases h

theorem encloses_of_descendant {kinds closed : List Kind}
    (h : x ∈ d.descendants id kinds closed) : d.Encloses id x :=
  encloses_of_below (mem_filter.mp h).1

/-- Every node that is reached from `top` has one slot, and `top` itself has none. -/
structure UniqueOwner (d : Document) (top : NodeId) : Prop where
  /-- What is reached is in the document. -/
  lt_size : ∀ {x}, Reaches d.refs top x → x < d.size
  /-- Nothing that is reached refers to `top`. -/
  top_free : ∀ {p}, Reaches d.refs top p → top ∉ d.refs p
  nodup : ∀ {p}, Reaches d.refs top p → (d.refs p).Nodup
  /-- No two nodes refer to the same node. -/
  owner_eq : ∀ {p q c}, Reaches d.refs top p → Reaches d.refs top q → c ∈ d.refs p → c ∈ d.refs q →
    p = q

def slots (d : Document) : List NodeId := (List.range d.size).flatMap d.refs

theorem mem_slots : c ∈ d.slots ↔ ∃ p, c ∈ d.refs p := by
  rw [slots, mem_flatMap]
  constructor
  · rintro ⟨p, -, hc⟩
    exact ⟨p, hc⟩
  · rintro ⟨p, hc⟩
    exact ⟨p, mem_range.mpr (lt_of_ref hc), hc⟩

theorem owner_eq_of_nodup (h : d.slots.Nodup) {q : NodeId} (hp : c ∈ d.refs p)
    (hq : c ∈ d.refs q) : p = q := by
  by_contra hpq
  have hpair := (nodup_flatMap.mp h).2
  have : Std.Symm (Function.onFun List.Disjoint d.refs) := ⟨fun _ _ hd => hd.symm⟩
  exact hpair.forall (mem_range.mpr (lt_of_ref hp))
    (mem_range.mpr (lt_of_ref hq)) hpq hp hq

theorem UniqueOwner.of_slots (h : d.slots.Nodup)
    (hlt : ∀ x ∈ d.slots, x < d.size) (ht : top < d.size) (hfree : top ∉ d.slots) :
    d.UniqueOwner top where
  lt_size hx := by
    rcases Relation.ReflTransGen.cases_tail hx with rfl | ⟨p, -, hc⟩
    · exact ht
    · exact hlt _ (mem_slots.mpr ⟨p, hc⟩)
  top_free _ hc := hfree (mem_slots.mpr ⟨_, hc⟩)
  nodup {p} _ := by
    by_cases hp : p < d.size
    · exact (nodup_flatMap.mp h).1 p (mem_range.mpr hp)
    · rw [refs_of_le (not_lt.mp hp)]
      exact nodup_nil
  owner_eq _ _ hp hq := owner_eq_of_nodup h hp hq

namespace UniqueOwner

variable {a b z : NodeId} {path path' : List NodeId}

section

variable (h : d.UniqueOwner top)
include h

theorem descent_nodup (hd : Descent d.refs top x path) : path.Nodup := by
  induction hd with
  | top => exact nodup_singleton top
  | @step p c path hd hc ih =>
    refine nodup_cons.mpr ⟨fun hmem => ?_, ih⟩
    -- a second visit of `c` would have the same owner, and so on up to `top`
    have key : ∀ {q : NodeId} {l : List NodeId}, Descent d.refs top q l →
        ∀ {c}, c ∈ l → c ∈ d.refs p → p ∈ l.tail ∨ c = top := by
      intro q l hl
      induction hl with
      | top => intro c hmem _; exact .inr (mem_singleton.mp hmem)
      | @step p' c' l hl hc' ih' =>
        intro c hmem hcp
        rcases mem_cons.mp hmem with rfl | hmem
        · have hpp : p = p' := h.owner_eq hd.reaches hl.reaches hcp hc'
          subst hpp
          left
          cases hl with
          | top => exact mem_singleton.mpr rfl
          | step _ _ => exact mem_cons_self
        · rcases ih' hmem hcp with hp | hp
          · exact .inl (mem_of_mem_tail hp)
          · exact .inr hp
    rcases key hd hmem hc with hp | rfl
    · cases hd with
      | top => simp at hp
      | step _ _ => exact (nodup_cons.mp ih).1 hp
    · exact h.top_free hd.reaches hc

theorem descent_lt (hd : Descent d.refs top x path) : ∀ y ∈ path, y < d.size := by
  induction hd with
  | top => intro y hy; rw [mem_singleton.mp hy]; exact h.lt_size .refl
  | step hd hc ih =>
    intro y hy
    rcases mem_cons.mp hy with rfl | hy
    · exact h.lt_size (hd.reaches.tail hc)
    · exact ih y hy

theorem shallow : Shallow d.refs d.size top :=
  shallow_of_descents fun _ _ hd => ⟨h.descent_nodup hd, h.descent_lt hd⟩

theorem shallow_kids : Shallow d.kids d.size top :=
  h.shallow.of_subset fun x _ => d.kids_sub x

theorem not_encloses_top : ¬ d.Encloses top top := by
  intro ht
  obtain ⟨p, hp, hc⟩ := Relation.TransGen.tail'_iff.mp ht
  exact h.top_free (Reaches.mono d.kids_sub hp) (d.kids_sub p hc)

theorem reaches_total (ha : Reaches d.refs top a)
    (hb : Reaches d.refs top b) (haz : Reaches d.refs a z) (hbz : Reaches d.refs b z) :
    Reaches d.refs a b ∨ Reaches d.refs b a := by
  induction haz with
  | refl => exact .inr hbz
  | @tail p z haz hz ih =>
    rcases Relation.ReflTransGen.cases_tail hbz with rfl | ⟨q, hbq, hq⟩
    · exact .inl (haz.tail hz)
    · obtain rfl := h.owner_eq (ha.trans haz) (hb.trans hbq) hz hq
      exact ih hbq

end

section

variable (h : d.UniqueOwner top) (hp : Reaches d.refs top p)
include h hp

theorem apart (ha : a ∈ d.refs p)
    (hb : b ∈ d.refs p) (hab : a ≠ b) (haz : Reaches d.refs a z) : ¬ Reaches d.refs b z := by
  intro hbz
  have hs : Shallow d.refs d.size p := h.shallow.reaches hp
  -- if `a` reached `b` it would reach the owner of `b`, which is above `a`
  have key : ∀ {a b}, a ∈ d.refs p → b ∈ d.refs p → a ≠ b → ¬ Reaches d.refs a b := by
    intro a b ha hb hab hr
    rcases Relation.ReflTransGen.cases_tail hr with rfl | ⟨q, haq, hq⟩
    · exact hab rfl
    · obtain rfl := h.owner_eq hp ((hp.tail ha).trans haq) hb hq
      exact hs.not_reaches ha haq
  rcases h.reaches_total (hp.tail ha) (hp.tail hb) haz hbz with hr | hr
  · exact key ha hb hab hr
  · exact key hb ha hab.symm hr

theorem kids_apart (ha : a ∈ d.kids p)
    (hb : b ∈ d.kids p) (hab : a ≠ b) (haz : Reaches d.kids a z) : ¬ Reaches d.kids b z :=
  fun hbz => h.apart hp (d.kids_sub p ha) (d.kids_sub p hb) hab
    (haz.mono d.kids_sub) (hbz.mono d.kids_sub)

theorem kids_nodup : (d.kids p).Nodup :=
  (h.nodup hp).sublist (d.kids_sublist_refs p)

theorem nodup_append {k k' l l' : List NodeId}
    (hk : (k ++ k').Sublist (d.kids p)) (hl : ∀ x ∈ l, ∃ c ∈ k, Reaches d.kids c x)
    (hl' : ∀ x ∈ l', ∃ c ∈ k', Reaches d.kids c x) (hn : l.Nodup) (hn' : l'.Nodup) :
    (l ++ l').Nodup := by
  refine List.nodup_append.mpr ⟨hn, hn', fun x hx y hy hxy => ?_⟩
  obtain ⟨c, hc, hr⟩ := hl x hx
  obtain ⟨c', hc', hr'⟩ := hl' y hy
  have hne : c ≠ c' := (List.nodup_append.mp ((h.kids_nodup hp).sublist hk)).2.2 c hc c' hc'
  exact h.kids_apart hp (hk.subset (mem_append_left _ hc))
    (hk.subset (mem_append_right _ hc')) hne hr (hxy ▸ hr')

theorem not_reaches_mem (ha : a ∈ d.refs p) : ¬ Reaches d.refs a p :=
  (h.shallow.reaches hp).not_reaches ha

theorem pairwise_below (enter : NodeId → Bool) (n : Nat) :
    (d.below enter n p).Pairwise fun x y => ¬ Reaches d.refs y x := by
  induction n generalizing p with
  | zero => exact .nil
  | succ n ih =>
    rw [below, ← flatMap_assoc, pairwise_flatMap]
    have hpart : ∀ {c x}, x ∈ c :: (if enter c then d.below enter n c else []) →
        Reaches d.refs c x := by
      intro c x hx
      rcases mem_cons.mp hx with rfl | hx
      · exact .refl
      · split_ifs at hx
        · exact reaches_of_enc (encloses_of_below hx)
        · cases hx
    refine ⟨fun c hc => ?_, (h.kids_nodup hp).imp_of_mem fun {a b} ha hb hab x hx y hy hr => ?_⟩
    · have hpc := hp.tail (d.kids_sub p hc)
      refine pairwise_cons.mpr ⟨fun y hy hr => ?_, ?_⟩ <;> split_ifs at *
      · obtain ⟨e, he, hey⟩ := Relation.TransGen.head'_iff.mp (encloses_of_below hy)
        exact h.not_reaches_mem hpc (d.kids_sub c he)
          ((Reaches.mono d.kids_sub hey).trans hr)
      · cases hy
      · exact ih hpc
      · exact .nil
    · exact h.apart hp (d.kids_sub p ha) (d.kids_sub p hb) hab (hpart hx)
        ((hpart hy).trans hr)

theorem nodup_below (enter : NodeId → Bool) (n : Nat) : (d.below enter n p).Nodup :=
  (h.pairwise_below hp enter n).imp fun {a b} hr (heq : a = b) => hr (heq ▸ .refl)

end

end UniqueOwner

end Document

end Stencil
