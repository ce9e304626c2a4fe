import Stencil.Doc.Copy
import Stencil.Proofs.Doc.Tending

/-!
# Copies

A copy of a node has a new node for everything that is reached from it. So **a copy is a tree of its
own** (`Grove.adopt`): its nodes are new and refer to new nodes only, and all that was there is as
before.
-/

namespace Stencil

open Branch List

variable {g : Fragment → Fragment} {i : Nat} {f : NodeId → NodeId}
  {outside : NodeId → Option NodeId}

namespace Document

variable {d s : Document} {a b c x y : NodeId} {l L M : List NodeId} {n m : Nat}

theorem weight_succ (d : Document) (n : Nat) (x : NodeId) :
    d.weight (n + 1) x = 1 + ((d.refs x).map (d.weight n)).sum := rfl

theorem weight_eq (h : Shallow d.refs n x) (hnm : n ≤ m) : d.weight m x = d.weight n x := by
  induction n generalizing m x with
  | zero => exact h.elim
  | succ n ih =>
    obtain ⟨m, rfl⟩ : ∃ k, m = k + 1 := ⟨m - 1, by omega⟩
    rw [weight_succ, weight_succ]
    congr 2
    exact map_congr_left fun c hc => ih (h c hc) (by omega)

theorem weight_eq_add (h : Shallow d.refs n x) :
    d.weight n x = 1 + ((d.refs x).map (d.weight n)).sum := by
  obtain ⟨n, rfl⟩ := h.exists_succ
  rw [weight_succ]
  congr 2
  exact map_congr_left fun c hc => (weight_eq (h c hc) (Nat.le_succ n)).symm

theorem spread_cons (d : Document) (steps : Nat) (x : NodeId) (l : List NodeId) :
    d.spread (steps + 1) (x :: l) = x :: d.spread steps (l ++ d.refs x) := rfl

theorem weight_step {steps : Nat} (hl : ∀ b ∈ a :: l, Shallow d.refs n b)
    (hsteps : ((a :: l).map (d.weight n)).sum = steps + 1) :
    (∀ c ∈ l ++ d.refs a, Shallow d.refs n c) ∧
      ((l ++ d.refs a).map (d.weight n)).sum = steps := by
  obtain ⟨ha, hl⟩ := forall_mem_cons.mp hl
  refine ⟨fun c hc => ?_, ?_⟩
  · exact (mem_append.mp hc).elim (hl c) fun hc => (ha.child hc).mono (Nat.sub_le n 1)
  · rw [map_cons, sum_cons, weight_eq_add ha] at hsteps
    rw [map_append, sum_append]
    omega

theorem mem_spread (hl : ∀ a ∈ l, Shallow d.refs n a) :
    y ∈ d.spread (l.map (d.weight n)).sum l ↔ ∃ a ∈ l, Reaches d.refs a y := by
  generalize hsteps : (l.map (d.weight n)).sum = steps
  induction steps generalizing l with
  | zero =>
    cases l with
    | nil => simp [spread]
    | cons a l =>
      have := weight_eq_add (hl a mem_cons_self)
      rw [map_cons, sum_cons] at hsteps
      omega
  | succ steps ih =>
    cases l with
    | nil => simp [spread]
    | cons a l =>
      obtain ⟨hmore, hsum⟩ := weight_step hl hsteps
      rw [spread_cons, mem_cons, ih hmore hsum]
      constructor
      · rintro (rfl | ⟨c, hc, hr⟩)
        · exact ⟨y, mem_cons_self, .refl⟩
        · rcases mem_append.mp hc with hc | hc
          · exact ⟨c, mem_cons_of_mem _ hc, hr⟩
          · exact ⟨a, mem_cons_self, .head hc hr⟩
      · rintro ⟨c, hc, hr⟩
        rcases mem_cons.mp hc with rfl | hc
        · rcases hr.eq_or_child with rfl | ⟨e, he, hr⟩
          · exact .inl rfl
          · exact .inr ⟨e, mem_append_right _ he, hr⟩
        · exact .inr ⟨c, mem_append_left _ hc, hr⟩

theorem mem_reached (h : Shallow d.refs d.size x) : y ∈ d.reached x ↔ Reaches d.refs x y := by
  have hw := mem_spread (d := d) (n := d.size) (l := [x]) (y := y) (by simpa using h)
  simpa [reached] using hw

theorem head?_reached (h : Shallow d.refs d.size x) : (d.reached x).head? = some x := by
  rw [reached, weight_eq_add h, Nat.add_comm, spread]
  rfl

def Antichain (d : Document) (l : List NodeId) : Prop :=
  l.Nodup ∧ ∀ a ∈ l, ∀ b ∈ l, a ≠ b → ¬ Reaches d.refs a b

theorem UniqueOwner.antichain_step (h : d.UniqueOwner x) (hl : ∀ b ∈ a :: l, Reaches d.refs x b)
    (ha : d.Antichain (a :: l)) : d.Antichain (l ++ d.refs a) := by
  obtain ⟨hnodup, hapart⟩ := ha
  obtain ⟨hxa, hxl⟩ := forall_mem_cons.mp hl
  obtain ⟨hal, hl⟩ := nodup_cons.mp hnodup
  have hne : ∀ b ∈ l, a ≠ b := fun b hb heq => hal (heq ▸ hb)
  -- the owner of what `a` refers to is `a`
  have hup : ∀ {y c}, Reaches d.refs x y → c ∈ d.refs a → y ≠ c → Reaches d.refs y c →
      Reaches d.refs y a := by
    intro y c hxy hc hyc hr
    rcases Relation.ReflTransGen.cases_tail hr with heq | ⟨p, hp, hpc⟩
    · exact absurd heq.symm hyc
    · exact h.owner_eq (hxy.trans hp) hxa hpc hc ▸ hp
  refine ⟨List.nodup_append.mpr ⟨hl, h.nodup hxa, ?_⟩, ?_⟩
  · rintro b hb c hc rfl
    exact hapart a List.mem_cons_self b (List.mem_cons_of_mem _ hb) (hne b hb) (.child hc)
  · intro b hb c hc hbc hr
    rcases List.mem_append.mp hb with hb | hb <;> rcases List.mem_append.mp hc with hc | hc
    · exact hapart b (List.mem_cons_of_mem _ hb) c (List.mem_cons_of_mem _ hc) hbc hr
    · exact hapart b (mem_cons_of_mem _ hb) a mem_cons_self (hne b hb).symm
        (hup (hxl b hb) hc hbc hr)
    · exact hapart a mem_cons_self c (mem_cons_of_mem _ hc) (hne c hc) (.head hb hr)
    · exact h.not_reaches_mem hxa hb (hup (hxa.tail hb) hc hbc hr)

theorem UniqueOwner.nodup_spread (h : d.UniqueOwner x) (hl : ∀ a ∈ l, Reaches d.refs x a)
    (ha : d.Antichain l) : (d.spread (l.map (d.weight d.size)).sum l).Nodup := by
  generalize hsteps : (l.map (d.weight d.size)).sum = steps
  induction steps generalizing l with
  | zero => exact nodup_nil
  | succ steps ih =>
    cases l with
    | nil => exact nodup_nil
    | cons a l =>
      have hxa : Reaches d.refs x a := hl a mem_cons_self
      have hshallow : ∀ b ∈ a :: l, Shallow d.refs d.size b := fun b hb =>
        h.shallow.reaches (hl b hb)
      obtain ⟨hmore, hsum⟩ := weight_step hshallow hsteps
      have hnext : ∀ b ∈ l ++ d.refs a, Reaches d.refs x b := fun b hb =>
        (mem_append.mp hb).elim (fun hb => hl b (mem_cons_of_mem _ hb)) hxa.tail
      rw [spread_cons]
      refine nodup_cons.mpr ⟨fun hmem => ?_, ih hnext (h.antichain_step hl ha) hsum⟩
      rw [← hsum, mem_spread hmore] at hmem
      obtain ⟨c, hc, hr⟩ := hmem
      rcases mem_append.mp hc with hc | hc
      · exact ha.2 c (mem_cons_of_mem _ hc) a mem_cons_self
          (fun heq => (nodup_cons.mp ha.1).1 (heq ▸ hc)) hr
      · exact h.not_reaches_mem hxa hc hr

theorem UniqueOwner.nodup_reached (h : d.UniqueOwner x) : (d.reached x).Nodup := by
  have hw := h.nodup_spread (l := [x]) (fun a ha => by rw [mem_singleton.mp ha])
    ⟨nodup_singleton x, by simp⟩
  simpa [reached] using hw

theorem nodes_map (htext : ∀ s, g (.text s) = .text s)
    (hnode : ∀ id, g (.node id) = .node (f id)) (b : Branch) :
    Branch.nodes (b.map g) = b.nodes.map f := by
  induction b with
  | nil => rfl
  | cons e b ih => cases e <;> simp [htext, hnode, ih]

theorem flatMap_nodes_map
    (htext : ∀ s, g (.text s) = .text s) (hnode : ∀ id, g (.node id) = .node (f id))
    (bs : List Branch) : (bs.map (·.map g)).flatMap Branch.nodes = (bs.flatMap Branch.nodes).map f := by
  rw [flatMap_map, map_flatMap]
  exact flatMap_congr fun b _ => nodes_map htext hnode b

theorem references_renumber (f : NodeId → NodeId) (target : NodeId → Option NodeId) (n : Node) :
    (renumber f target n).references = n.references.map f := by
  cases hp : n.payload with
  | none =>
    simp only [renumber, Node.references, Node.body, Node.body?, hp, Option.getD_none,
      nodes_nil, map_nil, nil_append, Option.toList_none, append_nil]
    exact flatMap_nodes_map (fun _ => rfl) (fun _ => rfl) n.branches
  | naming m =>
    simp only [renumber, Node.references, Node.body, Node.body?, hp, Option.getD_none,
      nodes_nil, map_nil, nil_append, Option.toList_none, append_nil]
    exact flatMap_nodes_map (fun _ => rfl) (fun _ => rfl) n.branches
  | body b =>
    simp only [renumber, Node.references, Node.body, Node.body?, hp, Option.getD_some,
      map_append, map_map]
    congr 1
    · congr 1
      · congr 1
        exact nodes_map (fun _ => rfl) (fun _ => rfl) b.opening
      · exact flatMap_nodes_map (fun _ => rfl) (fun _ => rfl) n.branches
    · cases b.closing <;> rfl

def copyNumber (k : Nat) (copied : List NodeId) (x : NodeId) : NodeId :=
  ((copied.zipIdx k).reverse.lookup x).getD x

variable {k : Nat}

theorem lookup_getElem (hn : l.Nodup) (hi : i < l.length) :
    (l.zipIdx k).reverse.lookup l[i] = some (k + i) := by
  have hkeys : ((l.zipIdx k).reverse.map Prod.fst).Nodup := by
    rw [map_reverse, zipIdx_map_fst, nodup_reverse]
    exact hn
  refine lookup_of_mem hkeys ?_
  rw [mem_reverse, mk_add_mem_zipIdx_iff_getElem?]
  exact getElem?_eq_getElem hi

theorem copyNumber_getElem (hn : l.Nodup) (hi : i < l.length) : copyNumber k l l[i] = k + i := by
  rw [copyNumber, lookup_getElem hn hi]
  rfl

theorem map_copyNumber (hn : l.Nodup) : l.map (copyNumber k l) = range' k l.length := by
  refine ext_getElem (by simp) fun i hi _ => ?_
  rw [getElem_map, copyNumber_getElem hn (by simpa using hi), getElem_range', Nat.one_mul]

theorem copyNumber_injOn (hn : l.Nodup) (ha : a ∈ l) (hb : b ∈ l)
    (h : copyNumber k l a = copyNumber k l b) : a = b := by
  have hnodup : (l.map (copyNumber k l)).Nodup := by
    rw [map_copyNumber hn]
    exact nodup_range'
  exact inj_on_of_nodup_map hnodup ha hb h

theorem le_copyNumber (hn : l.Nodup) (ha : a ∈ l) :
    k ≤ copyNumber k l a ∧ copyNumber k l a < k + l.length := by
  have hmem : copyNumber k l a ∈ l.map (copyNumber k l) := mem_map_of_mem ha
  rw [map_copyNumber hn, mem_range'_1] at hmem
  exact hmem

def copyTarget (k : Nat) (copied : List NodeId) (outside : NodeId → Option NodeId) (x : NodeId) :
    Option NodeId :=
  ((copied.zipIdx k).reverse.lookup x).or (outside x)

section Adopt

theorem adopt_eq : d.adopt s l outside = (d.size, ⟨d.nodes ++ l.map fun x =>
    renumber (copyNumber d.size l) (copyTarget d.size l outside) (s.node x)⟩) := rfl

theorem size_adopt : (d.adopt s l outside).2.size = d.size + l.length := by
  rw [adopt_eq, size, ← Array.length_toList, Array.toList_appendList, length_append,
    length_map, Array.length_toList]
  rfl

theorem node_adopt : (d.adopt s l outside).2.node y = ((d.nodes.toList ++ l.map fun x =>
    renumber (copyNumber d.size l) (copyTarget d.size l outside) (s.node x))[y]?).getD
      { kind := .root, place := Place.startOf "" } := by
  rw [adopt_eq, node, ← Array.getElem?_toList, Array.toList_appendList]

theorem node_adopt_of_lt (hy : y < d.size) : (d.adopt s l outside).2.node y = d.node y := by
  rw [node_adopt, getElem?_append_left (by rwa [Array.length_toList]), Array.getElem?_toList, node]

theorem node_adopt_add (hi : i < l.length) : (d.adopt s l outside).2.node (d.size + i) =
    renumber (copyNumber d.size l) (copyTarget d.size l outside) (s.node l[i]) := by
  rw [node_adopt, getElem?_append_right (by rw [Array.length_toList]; exact Nat.le_add_right ..),
    Array.length_toList, show d.size + i - d.nodes.size = i from Nat.add_sub_cancel_left ..,
    getElem?_map, getElem?_eq_getElem hi]
  rfl

theorem refs_adopt_of_lt (hy : y < d.size) : (d.adopt s l outside).2.refs y = d.refs y := by
  rw [refs, node_adopt_of_lt hy]
  rfl

theorem refs_adopt_copyNumber (hn : l.Nodup) (hx : x ∈ l) :
    (d.adopt s l outside).2.refs (copyNumber d.size l x) =
      (s.refs x).map (copyNumber d.size l) := by
  obtain ⟨i, hi, rfl⟩ := getElem_of_mem hx
  rw [copyNumber_getElem hn hi, refs, node_adopt_add hi, references_renumber]
  rfl

theorem slots_adopt (hn : l.Nodup) : (d.adopt s l outside).2.slots =
    d.slots ++ (l.flatMap s.refs).map (copyNumber d.size l) := by
  rw [slots, size_adopt, range_add, flatMap_append]
  congr 1
  · exact flatMap_congr fun y hy => refs_adopt_of_lt (mem_range.mp hy)
  · have hnumbers : (List.range l.length).map (d.size + ·) = l.map (copyNumber d.size l) := by
      rw [map_copyNumber hn, range'_eq_map_range]
    rw [hnumbers, flatMap_map, map_flatMap]
    exact flatMap_congr fun x hx => refs_adopt_copyNumber hn hx

end Adopt

/-- A list of nodes that is closed under references, with one that nothing in it refers to. -/
structure IsTree (s : Document) (x : NodeId) (l : List NodeId) : Prop where
  head : l.head? = some x
  nodup : l.Nodup
  closed : ∀ a ∈ l, ∀ c ∈ s.refs a, c ∈ l
  free : ∀ a ∈ l, x ∉ s.refs a

theorem UniqueOwner.isTree_reached (h : s.UniqueOwner x) : s.IsTree x (s.reached x) where
  head := head?_reached h.shallow
  nodup := h.nodup_reached
  closed a ha c hc := by
    rw [mem_reached h.shallow] at ha ⊢
    exact ha.tail hc
  free a ha hc := by
    rw [mem_reached h.shallow] at ha
    exact h.top_free ha hc

theorem Grove.isTree_reached (h : s.Grove M) (hx : x < s.size) : s.IsTree x (s.reached x) :=
  (h.uniqueOwner hx).isTree_reached

namespace IsTree

theorem mem (h : s.IsTree x l) : x ∈ l := mem_of_mem_head? h.head

theorem copyNumber_eq (h : s.IsTree x l) : copyNumber k l x = k := by
  obtain ⟨l', rfl⟩ : ∃ l', l = x :: l' := by
    cases l with
    | nil => cases h.head
    | cons a l => exact ⟨l, by rw [Option.some.inj h.head]⟩
  exact copyNumber_getElem (i := 0) h.nodup (Nat.succ_pos _)

theorem nodup_slots (h : s.IsTree x l) (hs : s.Grove M) : (x :: l.flatMap s.refs).Nodup := by
  refine nodup_cons.mpr ⟨fun hmem => ?_, nodup_flatMap.mpr ⟨fun a _ => hs.nodup_refs a, ?_⟩⟩
  · obtain ⟨a, ha, hc⟩ := mem_flatMap.mp hmem
    exact h.free a ha hc
  · refine h.nodup.pairwise_of_forall_ne fun a _ b _ hab c hca hcb => hab ?_
    exact hs.owner_eq hca hcb

end IsTree

theorem IsTree.shallow_adopt (hl : s.IsTree x l) (ha : a ∈ l) (hs : Shallow s.refs n a) :
    Shallow (d.adopt s l outside).2.refs n (copyNumber d.size l a) := by
  induction n generalizing a with
  | zero => exact hs.elim
  | succ n ih =>
    intro c hc
    rw [refs_adopt_copyNumber hl.nodup ha] at hc
    obtain ⟨e, he, rfl⟩ := mem_map.mp hc
    exact ih (hl.closed a ha e he) (hs e he)

theorem Grove.grounded_adopt (h : d.Grove L) (hs : s.Grove M)
    (hl : s.IsTree x l) (y : NodeId) : ∃ n, Shallow (d.adopt s l outside).2.refs n y := by
  rcases lt_or_ge y d.size with hy | hy
  · obtain ⟨n, hn⟩ := h.grounded y
    refine ⟨n, hn.of_subset fun z hz => ?_⟩
    rw [refs_adopt_of_lt (h.lt_of_reaches hy hz)]
    exact List.Subset.refl _
  · by_cases hnew : y < d.size + l.length
    · have hmem : y ∈ l.map (copyNumber d.size l) := by
        rw [map_copyNumber hl.nodup, mem_range'_1]
        exact ⟨hy, hnew⟩
      obtain ⟨a, ha, rfl⟩ := mem_map.mp hmem
      obtain ⟨n, hn⟩ := hs.grounded a
      exact ⟨n, hl.shallow_adopt ha hn⟩
    · refine ⟨1, fun c hc => ?_⟩
      rw [refs_of_le (by rw [size_adopt]; exact not_lt.mp hnew)] at hc
      cases hc

theorem Grove.adopt (h : d.Grove L) (hs : s.Grove M)
    (hl : s.IsTree x l) : (d.adopt s l outside).2.Grove (d.size :: L) := by
  have hslots : (d.adopt s l outside).2.slots =
      d.slots ++ (l.flatMap s.refs).map (copyNumber d.size l) := slots_adopt hl.nodup
  have hsub : ∀ c ∈ x :: l.flatMap s.refs, c ∈ l := by
    intro c hc
    rcases mem_cons.mp hc with rfl | hc
    · exact hl.mem
    · obtain ⟨a, ha, hc⟩ := mem_flatMap.mp hc
      exact hl.closed a ha c hc
  have hperm : ((d.adopt s l outside).2.slots ++ (d.size :: L)).Perm
      ((d.slots ++ L) ++ (x :: l.flatMap s.refs).map (copyNumber d.size l)) := by
    rw [hslots, map_cons, hl.copyNumber_eq, append_assoc, append_assoc]
    refine List.Perm.append_left _ ?_
    exact perm_middle.trans ((perm_append_comm.cons _).trans perm_middle.symm)
  have hnew : ∀ y ∈ (x :: l.flatMap s.refs).map (copyNumber d.size l),
      d.size ≤ y ∧ y < d.size + l.length := by
    intro y hy
    obtain ⟨c, hc, rfl⟩ := mem_map.mp hy
    exact le_copyNumber hl.nodup (hsub c hc)
  refine ⟨hperm.nodup_iff.mpr (nodup_append.mpr ⟨h.nodup, ?_, fun a ha b hb hab => ?_⟩),
    fun y hy => ?_, h.grounded_adopt hs hl⟩
  · exact (hl.nodup_slots hs).map_on fun a ha b hb => copyNumber_injOn hl.nodup (hsub a ha) (hsub b hb)
  · exact not_lt.mpr (hab ▸ (hnew b hb).1) (h.lt_size a ha)
  · rw [size_adopt]
    rcases mem_append.mp (hperm.mem_iff.mp hy) with hy | hy
    · exact lt_of_lt_of_le (h.lt_size y hy) (Nat.le_add_right _ _)
    · exact (hnew y hy).2

/-- Nodes have been added. Those that were there are as before, and the new ones refer to new ones
only. -/
structure Grown (d d' : Document) : Prop where
  size_le : d.size ≤ d'.size
  node_eq : ∀ y < d.size, d'.node y = d.node y
  refs_ge : ∀ y, d.size ≤ y → ∀ c ∈ d'.refs y, d.size ≤ c

namespace Grown

variable {d' d'' : Document}

theorem refl (d : Document) : d.Grown d :=
  ⟨le_refl _, fun _ _ => rfl, fun y hy c hc => by rw [refs_of_le hy] at hc; cases hc⟩

theorem trans (h : d.Grown d') (h' : d'.Grown d'') : d.Grown d'' where
  size_le := le_trans h.size_le h'.size_le
  node_eq y hy := by rw [h'.node_eq y (lt_of_lt_of_le hy h.size_le), h.node_eq y hy]
  refs_ge y hy c hc := by
    rcases lt_or_ge y d'.size with hlt | hge
    · rw [refs, h'.node_eq y hlt] at hc
      exact h.refs_ge y hy c hc
    · exact le_trans h.size_le (h'.refs_ge y hge c hc)

theorem not_reaches (h : d.Grown d') (ha : d.size ≤ a) (hb : b < d.size) : ¬ Reaches d'.refs a b := by
  have hge : ∀ {y}, Reaches d'.refs a y → d.size ≤ y := fun hr => by
    induction hr with
    | refl => exact ha
    | tail _ hc ih => exact h.refs_ge _ ih _ hc
  exact fun hr => not_lt.mpr (hge hr) hb

theorem adopt (hl : s.IsTree x l) :
    d.Grown (d.adopt s l outside).2 where
  size_le := by rw [size_adopt]; exact Nat.le_add_right _ _
  node_eq y hy := node_adopt_of_lt hy
  refs_ge y hy c hc := by
    have hlt := lt_of_ref hc
    rw [size_adopt] at hlt
    have hmem : y ∈ l.map (copyNumber d.size l) := by
      rw [map_copyNumber hl.nodup, mem_range'_1]
      exact ⟨hy, hlt⟩
    obtain ⟨a, ha, rfl⟩ := mem_map.mp hmem
    rw [refs_adopt_copyNumber hl.nodup ha] at hc
    obtain ⟨e, he, rfl⟩ := mem_map.mp hc
    exact (le_copyNumber hl.nodup (hl.closed a ha e he)).1

end Grown

theorem Grove.graft (h : d.Grove L) (hs : s.Grove M) (hx : x < s.size) :
    (d.graft s x).2.Grove (d.size :: L) ∧ d.Grown (d.graft s x).2 :=
  ⟨h.adopt hs (hs.isTree_reached hx), .adopt (hs.isTree_reached hx)⟩

theorem Grove.duplicate (h : d.Grove L) (hx : x < d.size) :
    (d.duplicate x).2.Grove (d.size :: L) ∧ d.Grown (d.duplicate x).2 :=
  ⟨h.adopt h (h.isTree_reached hx), .adopt (h.isTree_reached hx)⟩

/-- Adds the copy of a fragment to the copies so far, the last one first. -/
def copyFragment (built : Branch × Document) : Fragment → Branch × Document
  | .text s => (.text s :: built.1, built.2)
  | .node id => (.node (built.2.duplicate id).1 :: built.1, (built.2.duplicate id).2)

theorem duplicateBranch_eq (d : Document) (bs : Branch) : d.duplicateBranch bs =
    ((bs.foldl copyFragment ([], d)).1.reverse, (bs.foldl copyFragment ([], d)).2) := by
  rw [duplicateBranch]
  congr 1

/-- What each copy keeps is kept when a branch is copied. -/
theorem duplicateBranch_induction {bs : Branch} {I : Branch → Document → Prop} (h : I [] d)
    (htext : ∀ {b : Branch} {e : Document} {s : String}, .text s ∈ bs → I b e → I (.text s :: b) e)
    (hnode : ∀ {b : Branch} {e : Document} {x : NodeId}, x ∈ bs.nodes → I b e →
      I (.node e.size :: b) (e.duplicate x).2) :
    I (d.duplicateBranch bs).1.reverse (d.duplicateBranch bs).2 := by
  rw [duplicateBranch_eq, reverse_reverse]
  refine List.foldlRecOn (motive := fun built : Branch × Document => I built.1 built.2) bs copyFragment h
    fun built hI f hf => ?_
  cases f with
  | text s => exact htext hf hI
  | node x => exact hnode (mem_nodes.mpr hf) hI

theorem Grove.duplicateBranch {bs : Branch} (h : d.Grove L) (hb : ∀ c ∈ bs.nodes, c < d.size) :
    (d.duplicateBranch bs).2.Grove ((d.duplicateBranch bs).1.nodes ++ L) ∧
      d.Grown (d.duplicateBranch bs).2 ∧
      ∀ c ∈ (d.duplicateBranch bs).1.nodes, d.size ≤ c := by
  obtain ⟨hg, hgrown, hge⟩ := d.duplicateBranch_induction (I := fun b e =>
    e.Grove (b.nodes ++ L) ∧ d.Grown e ∧ ∀ c ∈ b.nodes, d.size ≤ c) ⟨h, .refl d, by simp⟩
    (fun _ hI => hI) fun {b e x} hx ⟨hg, hgrown, hge⟩ => by
      obtain ⟨hg', hgrown'⟩ := hg.duplicate (lt_of_lt_of_le (hb x hx) hgrown.size_le)
      exact ⟨hg', hgrown.trans hgrown', forall_mem_cons.mpr ⟨hgrown.size_le, hge⟩⟩
  rw [nodes_reverse] at hg hge
  exact ⟨hg.perm ((reverse_perm _).append_right L), hgrown, fun c hc => hge c (mem_reverse.mpr hc)⟩

end Document

end Stencil
