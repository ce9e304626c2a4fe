import Stencil.Proofs.Doc.Tending

/-!
# Rebuilt branches

Removing nodes, dissolving them and replacing them rebuilds branches. Each of these takes nodes out of
their slots and puts others in their place, and so **keeps all trees apart** (`Grove.rebuild`,
`Grove.replaceNode`).
-/

namespace Stencil

open Branch List

variable {id : NodeId} {b : Branch} {fragments : List Fragment} {i k : Nat}

namespace Branch

theorem nodes_foldl_stack (fragments : List Fragment) (b : Branch) :
    nodes (fragments.foldl stack b) = (nodes fragments).reverse ++ b.nodes := by
  induction fragments generalizing b with
  | nil => rfl
  | cons f fragments ih =>
    rw [foldl_cons, ih]
    cases f with
    | text s => rw [nodes_stack_text, nodes_cons_text]
    | node id => rw [nodes_stack_node, nodes_cons_node]; simp

theorem nodes_ofFragments (fragments : List Fragment) :
    (ofFragments fragments).nodes = nodes fragments := by
  rw [ofFragments, nodes_reverse, nodes_foldl_stack]
  simp

theorem nodes_push (b : Branch) (f : Fragment) : (b.push f).nodes = b.nodes ++ f.node?.toList := by
  cases f with
  | node c => exact nodes_append b [.node c]
  | text s =>
    rw [push]
    split_ifs
    · simp [Fragment.node?]
    · split
      · next t ht =>
        obtain ⟨l, rfl⟩ := List.getLast?_eq_some_iff.mp ht
        simp [nodes, Fragment.node?, filterMap_cons]
      · simp [nodes, Fragment.node?]

theorem nodes_eq_of_getElem? (h : b[i]? = some (.node id)) :
    b.nodes = nodes (b.take i) ++ id :: nodes (b.drop (i + 1)) := by
  obtain ⟨hi, hget⟩ := List.getElem?_eq_some_iff.mp h
  conv_lhs => rw [← take_append_drop i b, drop_eq_getElem_cons hi, hget]
  rw [nodes_append, nodes_cons_node]

end Branch

namespace Document

variable {d d' d1 : Document} {B C D L L' : List NodeId} {c top x y : NodeId}
  {j n : Nat}

/-! ### What is left alone below a node -/

theorem Frame.kids_eq (h : d.Frame d' L) (hy : y ∈ L) (hr : Reaches d.refs y x) :
    d'.kids x = d.kids x := by
  rw [kids, branches, h.node_eq y hy x hr]
  rfl

theorem Frame.encloses (h : d.Frame d' L) (hy : y ∈ L) (he : d.Encloses y x) : d'.Encloses y x := by
  induction he with
  | single hc => exact .single (by rwa [h.kids_eq hy .refl])
  | tail hp hc ih =>
    have hr := Relation.TransGen.to_reflTransGen hp
    exact ih.tail (by rwa [h.kids_eq hy (Reaches.mono d.kids_sub hr)])

theorem Frame.shallow_kids (h : d.Frame d' L) (hy : y ∈ L) (hs : Shallow d.kids n y) :
    Shallow d'.kids n y :=
  hs.of_subset fun x hr => by
    rw [h.kids_eq hy (Reaches.mono d.kids_sub hr)]
    exact List.Subset.refl _

def Holds (d : Document) (y x : NodeId) : Prop := x = y ∨ d.Encloses y x

theorem Frame.holds (h : d.Frame d' L) (hy : y ∈ L) (hx : d.Holds y x) : d'.Holds y x :=
  hx.imp_right (h.encloses hy)

theorem Grove.frame_branch {b' : Branch} (h : d.Grove (top :: L)) (hr : Reaches d.refs top id)
    (hi : i < (d.branches id).length) (hj : j ≠ i) (hb : Tended (d.setBranch id i []) d1 B (top :: L)) :
    (d1.setBranch id i b').branch id j = d.branch id j ∧
      d.Frame (d1.setBranch id i b') (d.branch id j).nodes := by
  have hlt : id < d.size := h.lt_of_top hr
  have hr0 : Reaches (d.setBranch id i []).refs top id := reaches_modify.mpr hr
  have hnode : d1.node id = (d.setBranch id i []).node id :=
    hb.frame.node_eq top mem_cons_self id hr0
  have hlt1 : id < d1.size := lt_of_lt_of_le (by rwa [setBranch, size_modify]) hb.frame.size_le
  have hlen : i < (d1.branches id).length := by
    rw [branches, hnode]
    exact (length_setBranches hlt hi).symm ▸ hi
  have hothers : ∀ (e : Document) (b : Branch), id < e.size → i < (e.branches id).length →
      (e.setBranch id i b).branch id j = e.branch id j := by
    intro e b hlt hi
    rw [branch, node_setBranch hlt hi, Node.branch, branch, Node.branch, getD_eq_getElem?_getD,
      getD_eq_getElem?_getD, List.getElem?_set_ne hj.symm]
    rfl
  have hbranch : d1.branch id j = d.branch id j := by
    rw [branch, hnode]
    exact hothers d [] hlt hi
  refine ⟨(hothers d1 b' hlt1 hlen).trans hbranch, ?_, fun c hc x hx => ?_⟩
  · rw [setBranch, size_modify]
    exact le_trans (by rw [setBranch, size_modify]) hb.frame.size_le
  · have hcid : c ∈ d.refs id := refs_of_mem hc
    -- what is below a child does not lead back to the node
    have hne : ∀ {z}, Reaches d.refs c z → z ≠ id := by
      rintro z hz rfl
      exact h.not_reaches_mem hcid hz
    have hc0 : c ∈ (d.setBranch id i []).refs id :=
      refs_of_mem (i := j) (by rwa [hothers d [] hlt hi])
    have hx0 : Reaches (d.setBranch id i []).refs c x :=
      hx.congr fun z hz => refs_modify_ne (hne hz)
    rw [setBranch, modify_ne (hne hx),
      hb.frame.node_eq top mem_cons_self x ((hr0.tail hc0).trans hx0), setBranch,
      modify_ne (hne hx)]

/-! ### Rebuilding -/

section Rebuild

variable {change : NodeId → Document → List Fragment × Document}
  {below : NodeId → Document → Document} {marked : NodeId → Prop}

def replaceFragment (change : NodeId → Document → List Fragment × Document)
    (below : NodeId → Document → Document) (built : Branch × Document) :
    Fragment → Branch × Document
  | .text s => (built.1.stack (.text s), built.2)
  | .node child =>
    ((change child (below child built.2)).1.foldl Branch.stack built.1,
      (change child (below child built.2)).2)

def rebuildBranch (change : NodeId → Document → List Fragment × Document)
    (below : NodeId → Document → Document) (id : NodeId) (d : Document) (i : Nat) : Document :=
  let built := (d.branch id i).foldl (replaceFragment change below) ([], d.setBranch id i [])
  built.2.setBranch id i built.1.reverse

theorem rebuild_succ : d.rebuild change (n + 1) id =
    (List.range (d.branches id).length).foldl
      (rebuildBranch change (rebuild change n) id) d := by
  rw [rebuild]
  refine congrArg (fun g => List.foldl g d (List.range (d.branches id).length))
    (funext fun e => funext fun i => ?_)
  refine congrArg (fun built : Branch × Document => built.2.setBranch id i built.1.reverse)
    (foldl_ext _ _ _ fun built f _ => ?_)
  cases f <;> rfl

theorem rebuild_induction {P : Document → Prop} {B : Branch → Prop} (hnil : B [])
    (hstack : ∀ b f, B b → B (b.stack f))
    (hset : ∀ {d : Document} {x : NodeId} {i : Nat} {b : Branch}, P d → B b →
      P (d.setBranch x i b.reverse)) (hchange : ∀ x {d : Document}, P d → P (change x d).2) (h : P d) :
    P (d.rebuild change n id) := by
  induction n generalizing d id with
  | zero => exact h
  | succ n ih =>
    have hfold : ∀ (b : Branch) (built : Branch × Document), B built.1 → P built.2 →
        B (b.foldl (replaceFragment change (rebuild change n)) built).1 ∧
          P (b.foldl (replaceFragment change (rebuild change n)) built).2 := by
      intro b
      induction b with
      | nil => exact fun _ hb hp => ⟨hb, hp⟩
      | cons f b ihb =>
        intro built hb hp
        cases f with
        | text s => exact ihb _ (hstack _ (.text s) hb) hp
        | node c =>
          refine ihb _ ?_ (hchange c (ih hp))
          exact List.foldlRecOn _ _ hb fun b hb f _ => hstack b f hb
    rw [rebuild_succ]
    refine List.foldlRecOn _ _ h fun e he i _ => ?_
    obtain ⟨hb, hp⟩ := hfold (e.branch id i) ([], e.setBranch id i []) hnil (hset he hnil)
    exact hset hp hb

/-- What takes the place of a loose node is loose, and a marked node is taken out. -/
def Replaces (marked : NodeId → Prop)
    (change : NodeId → Document → List Fragment × Document) : Prop :=
  ∀ {d : Document} {id : NodeId} {L : List NodeId}, d.Grove (id :: L) →
    ∃ C, Tended d (change id d).2 (Branch.nodes (change id d).1 ++ C) L ∧ (marked id → id ∈ C)

/-- Marked nodes are taken out of the branches below a node, at most `levels` deep. -/
def Strips (marked : NodeId → Prop) (levels : Nat) (below : NodeId → Document → Document) : Prop :=
  ∀ {d : Document} {id top : NodeId} {L : List NodeId}, d.Grove (top :: L) →
    Reaches d.refs top id → ∃ C, Tended d (below id d) (top :: C) L ∧
      (Shallow d.kids levels id → ∀ x, d.Encloses id x → marked x → x ∈ C)

section

variable (hc : Replaces marked change) (hb : Strips marked n below)
include hc hb

theorem Replaces.node (h : d.Grove (c :: L)) : ∃ C, Tended d (change c (below c d)).2
      (Branch.nodes (change c (below c d)).1 ++ C) L ∧
      (Shallow d.kids n c → ∀ x, d.Holds c x → marked x → x ∈ C) := by
  obtain ⟨D, hbelow, hin⟩ := hb h .refl
  obtain ⟨C, hchange, hself⟩ := hc (L := D ++ L) hbelow.grove
  refine ⟨C ++ D, ⟨?_, hbelow.frame.trans (hchange.frame.mono (subset_append_right _ _))⟩, ?_⟩
  · have hg := hchange.grove
    rwa [← append_assoc, append_assoc _ C D] at hg
  · rintro hs x (rfl | hx) hm
    · exact mem_append_left _ (hself hm)
    · exact mem_append_right _ (hin hs x hx hm)

theorem Replaces.foldl {bs : Branch}
    {built : Branch × Document} (h : built.2.Grove (bs.nodes ++ (Branch.nodes built.1 ++ L))) :
    ∃ C, Tended built.2 (bs.foldl (replaceFragment change below) built).2
      (Branch.nodes (bs.foldl (replaceFragment change below) built).1 ++ C) L ∧
      ∀ c ∈ bs.nodes, Shallow built.2.kids n c →
        ∀ x, built.2.Holds c x → marked x → x ∈ C := by
  induction bs generalizing built L with
  | nil => exact ⟨[], .refl (by rw [append_nil]; exact h), fun c hc => by cases hc⟩
  | cons f bs ih =>
    rw [foldl_cons]
    cases f with
    | text s =>
      have hnodes : Branch.nodes (replaceFragment change below built (.text s)).1 =
          Branch.nodes built.1 := nodes_stack_text _ _
      rw [nodes_cons_text] at h ⊢
      have hg : (replaceFragment change below built (.text s)).2.Grove
          (Branch.nodes bs ++ (Branch.nodes (replaceFragment change below built (.text s)).1 ++ L)) := by
        rwa [hnodes]
      exact ih hg
    | node id =>
      rw [nodes_cons_node, cons_append] at h
      obtain ⟨C, hnode, hin⟩ := hc.node hb h
      set next := replaceFragment change below built (.node id)
      have hnodes : (Branch.nodes next.1).Perm
          (Branch.nodes (change id (below id built.2)).1 ++ Branch.nodes built.1) := by
        show (Branch.nodes (List.foldl Branch.stack built.1 _)).Perm _
        rw [nodes_foldl_stack]
        exact (reverse_perm _).append_right _
      have hg : next.2.Grove (Branch.nodes bs ++ (Branch.nodes next.1 ++ (C ++ L))) := by
        refine hnode.grove.perm ?_
        rw [perm_iff_count] at hnodes ⊢
        intro e
        have := hnodes e
        simp only [count_append] at this ⊢
        omega
      obtain ⟨D, hrest, hlater⟩ := ih (L := C ++ L) hg
      refine ⟨D ++ C, ⟨?_, ?_⟩, ?_⟩
      · have hg' := hrest.grove
        rwa [← append_assoc, append_assoc _ D C] at hg'
      · refine (hnode.frame.mono ?_).trans (hrest.frame.mono (subset_append_right _ _))
        exact fun y hy => mem_append_right _ (mem_append_right _ hy)
      · rw [nodes_cons_node, forall_mem_cons]
        refine ⟨fun hs x hx hm => mem_append_right _ (hin hs x hx hm), ?_⟩
        intro c hc hs x hx hm
        have hmem : c ∈ Branch.nodes bs ++ (Branch.nodes built.1 ++ L) := mem_append_left _ hc
        exact mem_append_left _ (hlater c hc (hnode.frame.shallow_kids hmem hs) x
          (hnode.frame.holds hmem hx) hm)

theorem Replaces.rebuildBranch
    (h : d.Grove (top :: L)) (hr : Reaches d.refs top id) (hi : i < (d.branches id).length) :
    ∃ C, Tended d (rebuildBranch change below id d i) (top :: C) L ∧
      ((Document.rebuildBranch change below id d i).branches id).length = (d.branches id).length ∧
      Reaches (Document.rebuildBranch change below id d i).refs top id ∧
      (∀ j ≠ i, (Document.rebuildBranch change below id d i).branch id j = d.branch id j ∧
        d.Frame (Document.rebuildBranch change below id d i) (d.branch id j).nodes) ∧
      ∀ c ∈ (d.branch id i).nodes, Shallow d.kids n c →
        ∀ x, d.Holds c x → marked x → x ∈ C := by
  have htake := (h.tended_takeBranch hr i).grove
  rw [append_assoc] at htake
  obtain ⟨C, hfold, hin⟩ := hc.foldl hb (show (([], d.setBranch id i []) : Branch × Document).2.Grove
    ((d.branch id i).nodes ++ (Branch.nodes [] ++ (top :: L))) from htake)
  have hframe : d.Frame (d.setBranch id i []) (d.branch id i).nodes :=
    .modify fun y hy => h.not_reaches_mem (refs_of_mem hy)
  set built := (d.branch id i).foldl (replaceFragment change below) ([], d.setBranch id i [])
  have hput : Tended (d.setBranch id i []) built.2 (Branch.nodes built.1.reverse ++ C)
      (top :: L) := by
    refine hfold.perm (List.Perm.append_right _ ?_)
    rw [nodes_reverse]
    exact (reverse_perm _).symm
  obtain ⟨htended, hlen, hr'⟩ := h.tended_branch hr hi hput
  refine ⟨C, htended, hlen, hr', fun j hj => h.frame_branch hr hi hj hput, ?_⟩
  intro c hc hs x hx hm
  exact hin c hc (hframe.shallow_kids hc hs) x (hframe.holds hc hx) hm

end

/-- The first `k` branches of a node have been rebuilt, and the nodes of `C` taken out. -/
structure Stripped (marked : NodeId → Prop) (n : Nat) (d d' : Document) (top id : NodeId)
    (L : List NodeId) (k : Nat) (C : List NodeId) : Prop where
  tended : Tended d d' (top :: C) L
  length_eq : (d'.branches id).length = (d.branches id).length
  reaches : Reaches d'.refs top id
  later : ∀ j, k ≤ j → d'.branch id j = d.branch id j ∧ d.Frame d' (d.branch id j).nodes
  taken : ∀ j < k, ∀ c ∈ (d.branch id j).nodes, Shallow d.kids n c →
    ∀ x, d.Holds c x → marked x → x ∈ C

theorem Stripped.step (hc : Replaces marked change) (hb : Strips marked n below)
    (h : Stripped marked n d d' top id L k C) (hk : k < (d.branches id).length) :
    ∃ C', Stripped marked n d (rebuildBranch change below id d' k) top id L (k + 1) C' := by
  obtain ⟨D, htended, hlen, hr, hothers, htaken⟩ := hc.rebuildBranch (L := C ++ L) hb
    h.tended.grove h.reaches (h.length_eq ▸ hk)
  refine ⟨D ++ C, htended.release.after h.tended.frame, hlen.trans h.length_eq, hr,
    fun j hj => ?_, ?_⟩
  · obtain ⟨hbranch, hframe⟩ := h.later j (by omega)
    obtain ⟨hbranch', hframe'⟩ := hothers j (by omega)
    exact ⟨hbranch'.trans hbranch, hframe.trans (hbranch ▸ hframe')⟩
  · intro j hj c hc hs x hx hm
    rcases Nat.lt_succ_iff_lt_or_eq.mp hj with hj | rfl
    · exact mem_append_right _ (h.taken j hj c hc hs x hx hm)
    · obtain ⟨hbranch, hframe⟩ := h.later j (le_refl j)
      exact mem_append_left _ (htaken c (hbranch ▸ hc) (hframe.shallow_kids hc hs) x
        (hframe.holds hc hx) hm)

theorem Stripped.foldl (hc : Replaces marked change) (hb : Strips marked n below)
    (h : d.Grove (top :: L)) (hr : Reaches d.refs top id) (hk : k ≤ (d.branches id).length) :
    ∃ C, Stripped marked n d ((List.range k).foldl (rebuildBranch change below id) d) top id L k
      C := by
  induction k with
  | zero =>
    exact ⟨[], .refl h, rfl, hr, fun j _ => ⟨rfl, .refl _ _⟩, fun j hj => absurd hj (Nat.not_lt_zero j)⟩
  | succ k ih =>
    obtain ⟨C, hstripped⟩ := ih (Nat.le_of_succ_le hk)
    rw [range_succ, foldl_append, foldl_cons, foldl_nil]
    exact hstripped.step hc hb hk

theorem Replaces.strips (hc : Replaces marked change) (n : Nat) :
    Strips marked n (rebuild change n) := by
  induction n with
  | zero =>
    intro d id top L h hr
    exact ⟨[], .refl h, fun hs => hs.elim⟩
  | succ n ih =>
    intro d id top L h hr
    obtain ⟨C, hstripped⟩ := Stripped.foldl hc ih h hr (le_refl _)
    refine ⟨C, by rw [rebuild_succ]; exact hstripped.tended, fun hs x hx hm => ?_⟩
    obtain ⟨c, hc, hcx⟩ := Relation.TransGen.head'_iff.mp hx
    obtain ⟨b, hb, hcb⟩ := mem_kids.mp hc
    obtain ⟨j, hj, rfl⟩ := getElem_of_mem hb
    rw [← branch_getElem hj] at hcb
    refine hstripped.taken j hj c hcb (hs c hc) x ?_ hm
    exact (Relation.reflTransGen_iff_eq_or_transGen.mp hcx)

end Rebuild

/-! ### Removing and dissolving nodes -/

theorem Grove.removeNodes (h : d.Grove (top :: L)) (hr : Reaches d.refs top id)
    (removed : List NodeId) : ∃ C, Tended d (d.removeNodes id removed) (top :: C) L ∧
      ∀ x, d.Encloses id x → x ∈ removed → x ∈ C := by
  rw [Document.removeNodes]
  split_ifs with hemp
  · rw [isEmpty_iff.mp hemp]
    exact ⟨[], .refl h, fun x _ hx => by cases hx⟩
  · have hreplaces : Replaces (· ∈ removed)
        fun n d => (if removed.contains n then [] else [.node n], d) := by
      intro d n L h
      by_cases hn : removed.contains n = true
      · refine ⟨[n], ?_, fun _ => mem_singleton_self n⟩
        simp only [if_pos hn]
        exact .refl h
      · refine ⟨[], ?_, fun hmem => absurd (contains_iff_mem.mpr hmem) hn⟩
        simp only [if_neg hn]
        exact .refl h
    obtain ⟨C, htended, hin⟩ := hreplaces.strips d.size h hr
    refine ⟨C, htended, hin ((h.shallow (h.lt_of_top hr)).of_subset fun x _ => ?_)⟩
    exact d.kids_sub x

theorem Grove.sust_removeNodes (h : d.Grove L) (hx : id < d.size) (removed : List NodeId) :
    d.Sustained (d.removeNodes id removed) L :=
  h.inside hx fun hg hr => by
    obtain ⟨C, htended, -⟩ := hg.removeNodes hr removed
    exact (htended.sublist (List.Sublist.cons_cons _ (nil_sublist C))).sustained

theorem Grove.sustained_removeKind (h : d.Grove L) (hx : id < d.size) (kind : Kind) :
    d.Sustained (d.removeKind id kind) L :=
  h.sust_removeNodes hx _

theorem nodes_flatten (bs : List Branch) : Branch.nodes bs.flatten = bs.flatMap Branch.nodes := by
  induction bs with
  | nil => rfl
  | cons b bs ih => rw [flatten_cons, nodes_append, ih, flatMap_cons]

theorem Grove.sustained_collapseKind (h : d.Grove L) (hx : id < d.size) (kind : Kind) :
    d.Sustained (d.collapseKind id kind) L := by
  refine h.inside hx fun hg hr => ?_
  have hreplaces : Replaces (fun _ => False) fun n d =>
      if d.kind n = kind then ((d.branches n).flatten, d.clear n) else ([.node n], d) := by
    intro d n L h
    refine ⟨[], ?_, False.elim⟩
    beta_reduce
    rw [append_nil]
    split_ifs
    · rw [nodes_flatten]
      exact h.tended_clear
    · exact .refl h
  obtain ⟨C, htended, -⟩ := hreplaces.strips d.size hg hr
  exact (htended.sublist (List.Sublist.cons_cons _ (nil_sublist C))).sustained

/-! ### Replacing a node -/

theorem locateBelow_eq_some {slot : Slot} (h : d.locateBelow x n id = some slot) :
    Reaches d.kids id slot.owner ∧
      (d.branch slot.owner slot.branch)[slot.index]? = some (.node x) := by
  induction n generalizing id with
  | zero => cases h
  | succ n ih =>
    rw [locateBelow] at h
    obtain ⟨⟨b, i⟩, hb, h⟩ := exists_of_findSome?_eq_some h
    obtain ⟨⟨f, j⟩, hf, h⟩ := exists_of_findSome?_eq_some h
    have hi : (d.branches id)[i]? = some b := mk_mem_zipIdx_iff_getElem?.mp hb
    have hj : b[j]? = some f := mk_mem_zipIdx_iff_getElem?.mp hf
    cases f with
    | text s => cases h
    | node child =>
      simp only at h
      split_ifs at h with hchild
      · cases h
        refine ⟨.refl, ?_⟩
        rw [branch, Node.branch, getD_eq_getElem?_getD, ← branches, hi, Option.getD_some, hj, hchild]
      · obtain ⟨hr, hslot⟩ := ih h
        refine ⟨.head ?_ hr, hslot⟩
        exact mem_kids.mpr ⟨b, mem_of_getElem? hi, mem_nodes.mpr (mem_of_getElem? hj)⟩

theorem Grove.replaceNode (h : d.Grove (Branch.nodes fragments ++ (root :: L))) :
    d.Sustained (d.replaceNode x fragments).2 (root :: L) := by
  rw [Document.replaceNode]
  cases hslot : d.locate x with
  | none => exact .refl (h.sublist (sublist_append_right _ _))
  | some slot =>
    obtain ⟨hr, hget⟩ := locateBelow_eq_some hslot
    have hr' : Reaches d.refs root slot.owner := hr.mono d.kids_sub
    set old := d.branch slot.owner slot.branch with hold
    have hsplit := nodes_eq_of_getElem? hget
    have hperm := (d.node slot.owner).refs_setBranch slot.branch (Branch.ofFragments
      (old.take slot.index ++ fragments ++ old.drop (slot.index + 1)))
    rw [nodes_ofFragments, nodes_append, nodes_append] at hperm
    have htended : Tended d (d.setBranch slot.owner slot.branch (Branch.ofFragments
        (old.take slot.index ++ fragments ++ old.drop (slot.index + 1)))) ([x] ++ [root]) L := by
      refine h.tended_modify hr' ?_
      rw [perm_iff_count] at hperm ⊢
      intro e
      have := hperm e
      rw [← branch, ← hold, hsplit] at this
      simp only [count_append, count_cons, count_nil] at this ⊢
      omega
    exact (htended.sublist (sublist_append_right _ _)).sustained

/-! ### Putting loose nodes into a node -/

section

variable (h : d.Grove (b.nodes ++ L)) (hx : x < d.size) (hb : ∀ c ∈ b.nodes, ¬ Reaches d.refs c x)
include h hx hb

theorem Grove.setChildren : d.Sustained (d.setChildren x b) L := by
  have hg : (d.setChildren x b).Grove (d.kids x ++ L) := by
    refine h.modify hx ?_ hb
    have h1 := ({ d.node x with branches := [b] } : Node).references_perm
    have h2 := (d.node x).references_perm
    have hbody : ({ d.node x with branches := [b] } : Node).body = (d.node x).body := rfl
    rw [hbody, flatMap_singleton] at h1
    rw [perm_iff_count] at h1 h2 ⊢
    intro e
    have h1 := h1 e
    have h2 := h2 e
    simp only [count_append, kids, branches] at h1 h2 ⊢
    omega
  exact ⟨hg.sublist (sublist_append_right _ _), (size_modify _ _ _).ge⟩

theorem Grove.sustained_setBranch (i : Nat) : d.Sustained (d.setBranch x i b) L := by
  have hperm := (d.node x).refs_setBranch i b
  have hg := Grove.modify (f := (·.setBranch i b)) h hx hperm hb
  exact ⟨hg.sublist (sublist_append_right _ _), (size_modify _ _ _).ge⟩

end

theorem Grove.prepend (h : d.Grove (Branch.nodes fragments ++ L))
    (hx : x < d.size) (hb : ∀ c ∈ Branch.nodes fragments, ¬ Reaches d.refs c x) :
    d.Sustained (d.prepend x fragments) L := by
  refine ⟨Grove.modify (B := []) h hx ?_ hb, (size_modify _ _ _).ge⟩
  have hp := (d.node x).refs_setBranch 0 (fragments ++ d.branch x 0)
  rw [perm_iff_count] at hp ⊢
  intro e
  have := hp e
  simp only [count_append, count_nil, nodes_append, branch] at this ⊢
  omega

theorem Grove.create_text (h : d.Grove L) (kind : Kind) (place : Place) (s : String) :
    ((d.create kind place).2.appendText d.size s).Grove (d.size :: L) ∧
      d.size < ((d.create kind place).2.appendText d.size s).size ∧
      ((d.create kind place).2.appendText d.size s).refs d.size = [] := by
  have hlt : d.size < (d.create kind place).2.size := by rw [size_create]; exact Nat.lt_succ_self _
  rw [appendText]
  split_ifs with hs
  · refine ⟨h.create kind place, hlt, ?_⟩
    rw [refs, create_self]
    rfl
  · have hnode : ((d.create kind place).2.append d.size 0 (.text s)).node d.size =
        { kind, place, branches := [[.text s]] } := by
      rw [append, modify_self hlt, create_self, Node.setBranch_zero, Node.branch_zero]
      simp [Node.children, Branch.push, hs]
    refine ⟨(h.create kind place).modify_same ?_, by rwa [append, size_modify], ?_⟩
    · rw [← modify_self (f := fun n => n.setBranch 0 ((n.branch 0).push (.text s))) hlt,
        ← append, hnode, create_self]
      rfl
    · rw [refs, hnode]
      rfl

end Document

end Stencil
