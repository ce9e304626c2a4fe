import Stencil.Proofs.Template.Ownership
import Stencil.Proofs.Template.Overriding

/-!
# What a template inherits

A template that extends another one becomes a copy of its parent, in which every block that the child
has too is given the child's content (`Overrides`).

`extend_overrides` says what the result is, node for node: what the parent has outside the overridden
blocks, the contents of the child's blocks, the former contents in place of `block.super`, and the
child's load and configuration tags at the top.
-/

namespace Stencil

open Branch Document List

variable {l : List NodeId} {c : NodeId} {b : Branch} {n : Node}

namespace Template

open Document

variable {child base d d' e : Document} {L M P : List NodeId} {r x y z : NodeId}

/-- The block of the child that overrides a block of the parent. -/
def override? (child base : Document) (x : NodeId) : Option NodeId :=
  (argument? base x 1).bind (blockNamed? child)

theorem lt_of_override? (hchild : child.Grove M) (h : override? child base x = some r) :
    r < child.size := by
  obtain ⟨name, -, hnamed⟩ := Option.bind_eq_some_iff.mp h
  exact hchild.lt_of_descendant (mem_reverse.mp (mem_of_find?_eq_some hnamed))

namespace Override

variable {φ : NodeId → NodeId} {ψ : NodeId → NodeId → NodeId}

theorem mono (h : Override child base r x φ ψ d) (hx : x < d.size) (hxy : x ≠ y) (hy : y < base.size)
    (hsize : d.size ≤ d'.size) (hnode : ∀ z < d.size, z ≠ y → d'.node z = d.node z) :
    Override child base r x φ ψ d' := by
  have hcopy : ∀ c, child.LeadsTo (child.branch r 0).nodes c → d'.node (φ c) = d.node (φ c) := by
    intro c hc
    obtain ⟨hle, hlt⟩ := h.fresh c hc
    exact hnode _ hlt (ne_of_gt (lt_of_lt_of_le hy hle))
  refine ⟨?_, fun c hc => ⟨(h.fresh c hc).1, lt_of_lt_of_le (h.fresh c hc).2 hsize⟩,
    fun c hc hs => ?_, fun c hc hs => ?_⟩
  · rw [hnode x hx hxy, h.node_eq]
  · rw [hcopy c hc]
    exact h.like c hc hs
  · obtain ⟨hexpanded, hcopied⟩ := h.super c hc hs
    refine ⟨?_, hcopied.mono hsize fun z hz hlt => ?_⟩
    · rw [hcopy c hc]
      exact hexpanded
    · exact hnode z hlt (ne_of_gt (lt_of_lt_of_le hy hz))

theorem of_eq (h : Override child e r x φ ψ d) (hsize : base.size ≤ e.size)
    (hx : e.node x = base.node x)
    (hsame : ∀ z, base.LeadsTo (base.children x).nodes z → base.node z = e.node z) :
    Override child base r x φ ψ d := by
  have hchildren : e.children x = base.children x := by rw [children, hx]; rfl
  refine ⟨by rw [h.node_eq, hx], fun c hc => ?_, h.like, fun c hc hs => ?_⟩
  · exact ⟨le_trans hsize (h.fresh c hc).1, (h.fresh c hc).2⟩
  · have hsuper := h.super c hc hs
    rw [hchildren] at hsuper
    exact ⟨hsuper.1, (hsuper.2.of_eq hsame).weaken hsize⟩

end Override

/-! ### All blocks -/

/-- The blocks of a list that the child has too are overridden, and nothing else has changed. -/
structure Overrides (child base : Document) (P : List NodeId) (d : Document) : Prop where
  size_le : base.size ≤ d.size
  kept : ∀ y < base.size, ¬ (y ∈ P ∧ (override? child base y).isSome) → d.node y = base.node y
  block : ∀ x ∈ P, ∀ r, override? child base x = some r → ∃ φ ψ, Override child base r x φ ψ d

section All

variable (hchild : child.Grove M) (hbase : base.Grove L)
include hbase

theorem Overrides.override?_eq (h : Overrides child base P e) (hP : ∀ p ∈ P, base.kind p = .block)
    (hx : x < base.size) (hxP : x ∉ P) : override? child e x = override? child base x := by
  have hcases : ∀ c ∈ base.refs x, e.node c = base.node c ∨
      e.kind c = .block ∧ base.kind c = .block := by
    intro c hc
    by_cases hover : c ∈ P ∧ (override? child base c).isSome
    · obtain ⟨r, hr⟩ := Option.isSome_iff_exists.mp hover.2
      obtain ⟨φ, ψ, hφ⟩ := h.block c hover.1 r hr
      have hkind : e.kind c = base.kind c := by rw [kind, hφ.node_eq]; rfl
      exact .inr ⟨hkind.trans (hP c hover.1), hP c hover.1⟩
    · exact .inl (h.kept c (hbase.lt_of_refs hc) hover)
  rw [override?, argument?_congr (h.kept x hx fun hmem => hxP hmem.1) (fun c hc => ?_)
    (fun c hc helement => ?_) 1]
  · rfl
  · rcases hcases c hc with heq | ⟨he, hb⟩
    · rw [kind, heq, kind]
    · rw [he, hb]
  · refine (hcases c hc).resolve_right fun hblock => ?_
    rw [hblock.2] at helement
    cases helement

include hchild

theorem Overrides.step (h : Overrides child base P e) (he : e.Grove L)
    (hP : ∀ p ∈ P, p < base.size ∧ base.kind p = .block ∧ ¬ Reaches base.refs x p) (hx : x < base.size) :
    Overrides child base (P ++ [x]) (overrideBlock child e x) := by
  have hxP : x ∉ P := fun hmem => (hP x hmem).2.2 .refl
  have hkeep : ∀ {y}, ¬ (y ∈ P ++ [x] ∧ (override? child base y).isSome) →
      ¬ (y ∈ P ∧ (override? child base y).isSome) := fun hno hyes =>
    hno ⟨mem_append_left _ hyes.1, hyes.2⟩
  have hname := h.override?_eq hbase (fun p hp => (hP p hp).2.1) hx hxP
  cases hfound : override? child base x with
  | none =>
    rw [hfound] at hname
    have hstay : overrideBlock child e x = e := by
      rw [overrideBlock, show (argument? e x 1).bind (blockNamed? child) = none from hname]
    rw [hstay]
    refine ⟨h.size_le, fun y hy hno => h.kept y hy (hkeep hno), fun y hy r hr => ?_⟩
    rcases mem_append.mp hy with hy | hy
    · exact h.block y hy r hr
    · rw [mem_singleton.mp hy, hfound] at hr
      cases hr
  | some r =>
    rw [hfound] at hname
    have hxe : x < e.size := lt_of_lt_of_le hx h.size_le
    have hself : e.node x = base.node x := h.kept x hx fun hmem => hxP hmem.1
    obtain ⟨hsize, hothers, φ, ψ, hover⟩ :=
      overrideBlock_spec hchild he (lt_of_override? hchild hfound) hxe hname
    refine ⟨le_trans h.size_le hsize, fun y hy hno => ?_, fun y hy r' hr => ?_⟩
    · have hyx : y ≠ x := fun heq => hno ⟨by simp [heq], by rw [heq, hfound]; rfl⟩
      rw [hothers y (lt_of_lt_of_le hy h.size_le) hyx, h.kept y hy (hkeep hno)]
    · by_cases hyx : y = x
      · rw [hyx, hfound] at hr
        cases hr
        rw [hyx]
        refine ⟨φ, ψ, hover.of_eq h.size_le hself ?_⟩
        rintro z ⟨a, ha, hr⟩
        have hxz : Reaches base.refs x z := .head (refs_of_children ha) hr
        exact (h.kept z (hbase.lt_of_reaches hx hxz) fun hmem => (hP z hmem.1).2.2 hxz).symm
      · have hyP : y ∈ P := by simpa [hyx] using hy
        obtain ⟨φ', ψ', hold⟩ := h.block y hyP r' hr
        exact ⟨φ', ψ', hold.mono (lt_of_lt_of_le (hP y hyP).1 h.size_le) hyx hx hsize hothers⟩

theorem Overrides.foldl (h : Overrides child base P e) (he : e.Grove L)
    (hlt : ∀ p ∈ P ++ l, p < base.size ∧ base.kind p = .block)
    (hpair : (P ++ l).Pairwise fun x y => ¬ Reaches base.refs y x) :
    Overrides child base (P ++ l) (l.foldl (overrideBlock child) e) := by
  induction l generalizing P e with
  | nil => rwa [append_nil]
  | cons x l ih =>
    have hx := hlt x (mem_append_right _ mem_cons_self)
    have hnext : Overrides child base (P ++ [x]) (overrideBlock child e x) :=
      h.step hchild hbase he (fun p hp => ⟨(hlt p (mem_append_left _ hp)).1,
        (hlt p (mem_append_left _ hp)).2,
        (pairwise_append.mp hpair).2.2 p hp x mem_cons_self⟩) hx.1
    have hxe : x < e.size := lt_of_lt_of_le hx.1 h.size_le
    rw [append_cons] at hlt hpair ⊢
    exact ih hnext (overrideBlock_sustained hchild hxe he).grove hlt hpair

theorem overrideBlocks_overrides :
    Overrides child base (blockNodes base) (overrideBlocks child base) := by
  have hstart : Overrides child base [] base := ⟨le_refl _, fun _ _ _ => rfl, by simp⟩
  refine hstart.foldl hchild hbase hbase (fun p hp => ?_) ?_
  · exact ⟨hbase.lt_of_descendant hp, by simpa [hasKind] using (mem_filter.mp hp).2⟩
  · exact (hbase.pairwise_below _ _ root).filter _

end All

/-! ### Tags at the top -/

theorem copied_foldl_copyTag (hchild : child.Grove M) (ha : child.Antichain l)
    (hl : ∀ t ∈ l, t < child.size) {built : List Fragment × Document}
    (h : built.2.Grove (Branch.nodes built.1 ++ L)) :
    ∃ χ, (l.foldl (copyTag child) built).1 = built.1 ++ l.map (fun t => Fragment.node (χ t)) ∧
      child.Copied l χ built.2.size (l.foldl (copyTag child) built).2 ∧
      built.2.Grown (l.foldl (copyTag child) built).2 := by
  induction l generalizing built with
  | nil =>
    refine ⟨id, (append_nil _).symm, ⟨?_, ?_, ?_⟩, .refl _⟩ <;> rintro x ⟨a, ha, -⟩ <;> cases ha
  | cons t l ih =>
    obtain ⟨ht, hl⟩ := forall_mem_cons.mp hl
    obtain ⟨hg, hgrown⟩ := h.graft hchild ht
    obtain ⟨φ, hφ, hcopied, -⟩ : ∃ φ, φ t = built.2.size ∧
        child.Copied [t] φ built.2.size (built.2.graft child t).2 ∧ _ := hchild.copied_reached ht
    have hnext : (copyTag child built t).2.Grove (Branch.nodes (copyTag child built t).1 ++ L) := by
      refine hg.perm ?_
      rw [copyTag, nodes_append, append_assoc]
      exact perm_middle.symm
    obtain ⟨χ, hcopies, hrest, hgrown'⟩ := ih (ha.sublist (sublist_cons_self _ _)) hl hnext
    obtain ⟨ω, hω, hωl, hall⟩ :=
      hchild.copied_cons ha hcopied hrest hgrown.size_le (le_refl _) hgrown'
    refine ⟨ω, ?_, hall, hgrown.trans hgrown'⟩
    have hmap : l.map (fun t => Fragment.node (ω t)) = l.map fun t => Fragment.node (χ t) :=
      map_congr_left fun t ht => congrArg Fragment.node (hωl t ht)
    rw [foldl_cons, hcopies, map_cons, hmap, hω, hφ, copyTag, append_assoc]
    rfl

theorem hoistTags_spec (hchild : child.Grove M) (he : e.Grove (root :: L)) :
    e.size ≤ (hoistTags child e).size ∧
      (∀ y < e.size, y ≠ root → (hoistTags child e).node y = e.node y) ∧
      ∃ χ, (hoistTags child e).node root = (e.node root).setBranch 0
          ((topNodes child [.loadTag, .config]).map (fun t => Fragment.node (χ t)) ++ e.branch root 0) ∧
        child.Copied (topNodes child [.loadTag, .config]) χ e.size (hoistTags child e) := by
  have ha : child.Antichain (topNodes child [.loadTag, .config]) :=
    (hchild.antichain_children root).sublist filter_sublist
  have hstart : (([], e) : List Fragment × Document).2.Grove (Branch.nodes [] ++ (root :: L)) := he
  obtain ⟨χ, hcopies, hcopied, hgrown⟩ := copied_foldl_copyTag hchild ha (lt_of_topNode hchild) hstart
  rw [hoistTags_eq]
  set built := (topNodes child [.loadTag, .config]).foldl (copyTag child) ([], e)
  have hroot := hgrown.node_eq root (root_lt he)
  have hsize : (built.2.prepend root built.1).size = built.2.size := by
    rw [prepend, setBranch, size_modify]
  refine ⟨hsize ▸ hgrown.size_le, fun y hy hne => ?_, χ, ?_, ?_⟩
  · rw [prepend, setBranch, modify_ne hne, hgrown.node_eq y hy]
  · rw [prepend, setBranch, modify_self (lt_of_lt_of_le (root_lt he) hgrown.size_le),
      branch, hroot, hcopies]
    rfl
  · refine hcopied.mono (le_of_eq hsize.symm) fun y hy _ => ?_
    rw [prepend, setBranch, modify_ne (ne_of_gt (lt_of_lt_of_le (root_lt he) hy))]

/-! ### Templates that extend others -/

/-- The parent with the blocks of the child, whose numbers are given by `φ` and `ψ`, and with copies of
the child's load and configuration tags at the top, whose numbers are given by `χ`. -/
structure Extended (child base : Document) (χ : NodeId → NodeId) (φ : NodeId → NodeId → NodeId)
    (ψ : NodeId → NodeId → NodeId → NodeId) (d : Document) : Prop where
  size_le : base.size ≤ d.size
  top : d.node root = (base.node root).setBranch 0
    ((topNodes child [.loadTag, .config]).map (fun t => Fragment.node (χ t)) ++ base.branch root 0)
  hoisted : child.Copied (topNodes child [.loadTag, .config]) χ base.size d
  kept : ∀ y < base.size, y ≠ root → ¬ (y ∈ blockNodes base ∧ (override? child base y).isSome) →
    d.node y = base.node y
  block : ∀ x ∈ blockNodes base, ∀ r, override? child base x = some r →
    Override child base r x (φ x) (ψ x) d

theorem root_notMem_blockNodes (hbase : base.Grove L) : root ∉ blockNodes base := fun h => by
  obtain ⟨c, hc, hr⟩ := Relation.TransGen.head'_iff.mp (encloses_of_descendant h)
  exact hbase.not_reaches_mem (base.kids_sub _ hc) (Reaches.mono base.kids_sub hr)

theorem exists_extended (hchild : child.Grove M) (hbase : base.Grove [root]) :
    ∃ χ φ ψ, Extended child base χ φ ψ (hoistTags child (overrideBlocks child base)) := by
  have hover := overrideBlocks_overrides hchild hbase
  obtain ⟨hsize, hothers, χ, htop, hcopied⟩ :=
    hoistTags_spec hchild (overrideBlocks_sustained hchild hbase).grove
  have hroot : root ∉ blockNodes base := root_notMem_blockNodes hbase
  have hlt := root_lt hbase
  have hblock : ∀ x, ∃ φψ : (NodeId → NodeId) × (NodeId → NodeId → NodeId), x ∈ blockNodes base →
      ∀ r, override? child base x = some r →
        Override child base r x φψ.1 φψ.2 (hoistTags child (overrideBlocks child base)) := by
    intro x
    by_cases h : x ∈ blockNodes base ∧ (override? child base x).isSome
    · obtain ⟨r, hr⟩ := Option.isSome_iff_exists.mp h.2
      obtain ⟨φ, ψ, hφ⟩ := hover.block x h.1 r hr
      have hx := lt_of_lt_of_le (hbase.lt_of_descendant h.1) hover.size_le
      have hmono := hφ.mono hx (fun heq : x = root => hroot (heq ▸ h.1)) hlt hsize hothers
      exact ⟨(φ, ψ), fun _ r' hr' => Option.some.inj (hr.symm.trans hr') ▸ hmono⟩
    · exact ⟨(id, fun _ => id), fun hx r hr => absurd ⟨hx, by rw [hr]; rfl⟩ h⟩
  obtain ⟨φψ, hφψ⟩ := Classical.axiomOfChoice hblock
  have hsame := hover.kept root hlt fun h => hroot h.1
  refine ⟨χ, fun x => (φψ x).1, fun x => (φψ x).2, le_trans hover.size_le hsize, ?_,
    hcopied.weaken hover.size_le, fun y hy hne hno => ?_, hφψ⟩
  · rw [htop, branch, hsame]
    rfl
  · rw [hothers y (lt_of_lt_of_le hy hover.size_le) hne, hover.kept y hy hno]

/-! ### What is left of the parent and of the child -/

theorem mem_references_setBranch
    (h : c ∈ (n.setBranch 0 b).references) : c ∈ n.references ∨ c ∈ b.nodes :=
  mem_append.mp ((n.refs_setBranch 0 b).mem_iff.mp (mem_append_left _ h))

theorem notMem_branch_of_mem_setBranch (hn : n.references.Nodup)
    (hb : c ∉ b.nodes) (h : c ∈ (n.setBranch 0 b).references) : c ∉ (n.branch 0).nodes := by
  intro hold
  have hcount := (n.refs_setBranch 0 b).count_eq c
  have hone := nodup_iff_count_le_one.mp hn c
  rw [count_append, count_append, count_eq_zero.mpr hb] at hcount
  have := count_pos_iff.mpr h
  have := count_pos_iff.mpr hold
  omega

/-- Outside the content of the blocks that are overridden. -/
def Outside (child base : Document) (z : NodeId) : Prop :=
  ∀ x ∈ blockNodes base, (override? child base x).isSome → ¬ base.LeadsTo (base.children x).nodes z

/-- The nodes a template that extends another one consists of. -/
inductive Part (child base : Document) (χ : NodeId → NodeId) (φ : NodeId → NodeId → NodeId)
    (ψ : NodeId → NodeId → NodeId → NodeId) : NodeId → Prop where
  /-- What the parent has outside the overridden blocks. -/
  | parent {z : NodeId} : Reaches base.refs root z → Outside child base z → Part child base χ φ ψ z
  /-- A copy of one of the child's tags, or a node in it. -/
  | tag {c : NodeId} : child.LeadsTo (topNodes child [.loadTag, .config]) c → Part child base χ φ ψ (χ c)
  /-- A copy of a node in a block of the child, in the parent's block `x`. -/
  | block {x r c : NodeId} : x ∈ blockNodes base → override? child base x = some r →
    child.LeadsTo (child.branch r 0).nodes c → Part child base χ φ ψ (φ x c)
  /-- A copy of a node of what the parent's block `x` held, in place of the child's variable `c`. -/
  | super {x r c y : NodeId} : x ∈ blockNodes base → override? child base x = some r →
    child.LeadsTo (child.branch r 0).nodes c → IsSuper child r c →
    base.LeadsTo (base.children x).nodes y → Part child base χ φ ψ (ψ x c y)

section Parts

variable {χ : NodeId → NodeId} {φ : NodeId → NodeId → NodeId} {ψ : NodeId → NodeId → NodeId → NodeId}
  (h : Extended child base χ φ ψ d) (hbase : base.Grove [root])
include h hbase

theorem Extended.part_of_parent (hz : Reaches base.refs root z) (hout : Outside child base z)
    (hc : c ∈ d.refs z) : Part child base χ φ ψ c := by
  have hlt : z < base.size := hbase.lt_of_reaches (root_lt hbase) hz
  -- what stays below it stays outside, unless it was in the part that is overridden
  have hstay : c ∈ base.refs z →
      ((override? child base z).isSome → z ∈ blockNodes base → c ∉ (base.children z).nodes) →
      Part child base χ φ ψ c := by
    intro hmem hself
    refine .parent (hz.tail hmem) fun x hx hsome hin => ?_
    obtain ⟨a, ha, hr⟩ := hin
    rcases Relation.ReflTransGen.cases_tail hr with rfl | ⟨p, hap, hpc⟩
    · obtain rfl := hbase.owner_eq (refs_of_children ha) hmem
      exact hself hsome hx ha
    · obtain rfl := hbase.owner_eq hpc hmem
      exact hout x hx hsome ⟨a, ha, hap⟩
  by_cases hroot : z = root
  · subst hroot
    rw [refs, h.top] at hc
    rcases mem_references_setBranch hc with hc | hc
    · exact hstay hc fun _ hmem => absurd hmem (root_notMem_blockNodes hbase)
    · rw [nodes_append, mem_append] at hc
      rcases hc with hc | hc
      · obtain ⟨t, ht, heq⟩ := mem_map.mp (mem_nodes.mp hc)
        cases heq
        exact .tag (.of_mem ht)
      · exact hstay (refs_of_mem hc) fun _ hmem => absurd hmem (root_notMem_blockNodes hbase)
  · by_cases hover : z ∈ blockNodes base ∧ (override? child base z).isSome
    · obtain ⟨r, hr⟩ := Option.isSome_iff_exists.mp hover.2
      have hblock := h.block z hover.1 r hr
      rw [refs, hblock.node_eq] at hc
      by_cases hnew : c ∈ (Branch.renumber (φ z) (child.branch r 0)).nodes
      · rw [nodes_renumber] at hnew
        obtain ⟨a, ha, rfl⟩ := mem_map.mp hnew
        exact .block hover.1 hr (.of_mem ha)
      · refine hstay ((mem_references_setBranch hc).resolve_right hnew) fun _ _ => ?_
        have hgone := notMem_branch_of_mem_setBranch (hbase.nodup_refs z) hnew hc
        rwa [Node.branch_zero] at hgone
    · rw [refs, h.kept z hlt hroot hover] at hc
      exact hstay hc fun hsome hmem => absurd ⟨hmem, hsome⟩ hover

omit hbase in
theorem Extended.part_of_block (hx : x ∈ blockNodes base) (hr : override? child base x = some r)
    {a : NodeId} (ha : child.LeadsTo (child.branch r 0).nodes a) (hc : c ∈ d.refs (φ x a)) :
    Part child base χ φ ψ c := by
  have hblock := h.block x hx r hr
  have hlike : ∀ {n}, (child.node a).Like (φ x) n → c ∈ n.references → Part child base χ φ ψ c := by
    intro n hn hmem
    rw [hn.references_eq] at hmem
    obtain ⟨c, hca, rfl⟩ := mem_map.mp hmem
    exact .block hx hr (ha.tail hca)
  by_cases hs : IsSuper child r a
  · obtain ⟨⟨n, hn, hnode⟩, -⟩ := hblock.super a ha hs
    rw [refs, hnode] at hc
    rcases mem_append.mp ((Node.references_perm _).mem_iff.mp hc) with hc | hc
    · exact hlike hn (n.body_refs_sub hc)
    · rw [flatMap_singleton, nodes_renumber] at hc
      obtain ⟨y, hy, rfl⟩ := mem_map.mp hc
      exact .super hx hr ha hs (.of_mem hy)
  · exact hlike (hblock.like a ha hs) hc

theorem Extended.part_of_reaches (hz : Reaches d.refs root z) : Part child base χ φ ψ z := by
  induction hz with
  | refl =>
    refine .parent .refl fun x hx _ hin => ?_
    obtain ⟨a, ha, hr⟩ := hin
    obtain rfl := hbase.eq_of_reaches mem_cons_self hr
    exact hbase.not_mem_refs mem_cons_self (refs_of_children ha)
  | tail _ hc ih =>
    cases ih with
    | parent hz hout => exact h.part_of_parent hbase hz hout hc
    | tag ht =>
      rw [refs, (h.hoisted.like _ ht).references_eq] at hc
      obtain ⟨c, hct, rfl⟩ := mem_map.mp hc
      exact .tag (ht.tail hct)
    | block hx hr ha => exact h.part_of_block hx hr ha hc
    | super hx hr ha hs hy =>
      rw [refs, (((h.block _ hx _ hr).super _ ha hs).2.like _ hy).references_eq] at hc
      obtain ⟨c, hcy, rfl⟩ := mem_map.mp hc
      exact .super hx hr ha hs (hy.tail hcy)

end Parts

/-- **Blocks are overridden with the last block of their name, and `block.super` is what the parent
has there.** A template that extends nothing stays as it is. Otherwise its parent is loaded, and the
result is a tree of nodes of the parent, which have not changed but for the root and the overridden
blocks, and of copies of nodes of the child and of the parent. -/
theorem extend_overrides {load : Loader} (hl : load.Plants) (hchild : child.Grove [root])
    {s s' : Session} (hok : extend load child s = .ok d s') :
    (topNodes child [.extendsTag]).head? = none ∧ d = child ∨
      ∃ tag name base s₁, (topNodes child [.extendsTag]).head? = some tag ∧
        literalArgument? child tag 1 = some name ∧ load name (child.place tag) s = .ok base s₁ ∧
        d.Grove [root] ∧ ∃ χ φ ψ, Extended child base χ φ ψ d ∧
          ∀ z, Reaches d.refs root z → Part child base χ φ ψ z := by
  have hgrove := extend_grove hl hchild hok
  refine (extend_eq_ok hok).imp_right ?_
  rintro ⟨tag, name, base, s₁, htag, hname, hload, rfl⟩
  have hbase := hl.grove hload
  obtain ⟨χ, φ, ψ, h⟩ := exists_extended hchild hbase
  exact ⟨tag, name, base, s₁, htag, hname, hload, hgrove, χ, φ, ψ, h, fun z => h.part_of_reaches hbase⟩

def nestedParent : Library := .listing
  [("p", some "\x7b% block a %\x7dx\x7b% block b %\x7dy\x7b% endblock %\x7d\x7b% endblock %\x7d")]

/-- A child that has both blocks, and what the outer one holds in the parent. -/
def overridingChild : String :=
  "\x7b% extends \"p\" %\x7d\x7b% block a %\x7d[\x7b\x7b block.super \x7d\x7d]\x7b% endblock %\x7d" ++
    "\x7b% block b %\x7dz\x7b% endblock %\x7d"

/-- The inner block is not overridden where it stands in place of `block.super`. -/
theorem extend_overrides_nested : ∃ child d s',
    parse (ofSource "page" overridingChild) = .ok () child ∧
    extend ({ templates := nestedParent } : Session).loader child { templates := nestedParent } =
      .ok d s' ∧
    d.output = "\x7b%block a%\x7d[x\x7b%block b%\x7dy\x7b%endblock%\x7d]\x7b%endblock%\x7d" ∧
    ∃ base χ φ ψ, Extended child base χ φ ψ d ∧
      ∀ z, Reaches d.refs root z → Part child base χ φ ψ z := by
  have hok : succeeds (do
        Work.edit parse
        Work.task (extend ({ templates := nestedParent } : Session).loader (← Work.document)))
      ({ session := { templates := nestedParent }, document := ofSource "page" overridingChild } : Job)
      (fun d j => !(topNodes j.document [.extendsTag]).isEmpty &&
        d.output == "\x7b%block a%\x7d[x\x7b%block b%\x7dy\x7b%endblock%\x7d]\x7b%endblock%\x7d") =
        true := by
    decide +kernel
  obtain ⟨d, j, h, hcheck⟩ := of_succeeds hok
  obtain ⟨_, j1, hedit, h⟩ := bind_eq_ok.mp h
  obtain ⟨child, hparse, rfl⟩ := Work.edit_eq_ok.mp hedit
  rw [Work.document_bind] at h
  obtain ⟨s', hextend, rfl⟩ := Work.task_eq_ok.mp h
  rw [Bool.and_eq_true, beq_iff_eq] at hcheck
  have hchild : child.Grove [root] :=
    (parse_sustains.sustained (grove_ofSource "page" overridingChild) hedit).grove
  rcases extend_overrides (loadTemplate_plants _) hchild hextend with ⟨hnone, -⟩ | hparent
  · rw [List.head?_eq_none_iff] at hnone
    rw [hnone] at hcheck
    cases hcheck.1
  · obtain ⟨_, _, base, _, -, -, -, -, χ, φ, ψ, hextended⟩ := hparent
    exact ⟨child, d, s', hparse, hextend, hcheck.2, base, χ, φ, ψ, hextended⟩

end Template

end Stencil
