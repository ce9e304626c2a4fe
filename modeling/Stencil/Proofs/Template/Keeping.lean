import Stencil.Compile
import Stencil.Proofs.Doc.Copying
import Stencil.Proofs.Markup.Keeping

/-!
# Putting templates together keeps trees apart

Content that is used more than once is copied for every use: what a block is overridden with, what
stands in place of a variable, of an include or decorate tag or of a call. A copy is new, so it leads to
nothing that was there (`Grown.not_reaches`), and may be put wherever the original could not be put. So
**putting a template together leaves one tree**, provided that the loader gives trees, and so does each
pass after that.
-/

namespace Stencil

open Document List

variable {base child d' : Document} {c : NodeId} {content : Branch} {n : Nat} {s s' : Session}

namespace Template

variable {d : Document} {L M : List NodeId} {id x : NodeId}

theorem setKind_sustained (h : d.Grove L) (x : NodeId) (kind : Kind) :
    d.Sustained (d.setKind x kind) L :=
  (Thinned.setKind d x kind).sustained h

theorem expand_sustained {b : Branch} (hd : d.Grown d') (h : d'.Grove (b.nodes ++ L))
    (hx : x < d.size) (hb : ∀ c ∈ b.nodes, d.size ≤ c) (kind : Kind) :
    d'.Sustained ((d'.setKind x kind).setChildren x b) L := by
  have hkind := setKind_sustained h x kind
  refine hkind.trans (hkind.grove.setChildren ?_ fun c hc hr => ?_)
  · exact lt_of_lt_of_le hx (le_trans hd.size_le hkind.size_le)
  · exact hd.not_reaches (hb c hc) hx
      (hr.mono fun y => ((Thinned.setKind d' x kind).refs_sublist y).subset)

def Above (n : Nat) (d : Document) : Prop := ∀ y, n ≤ y → ∀ c ∈ d.refs y, n ≤ c

theorem Above.le_of_reaches {a b : NodeId} (h : Above n d) (ha : n ≤ a)
    (hr : Reaches d.refs a b) : n ≤ b := by
  induction hr with
  | refl => exact ha
  | tail _ hc ih => exact h _ ih _ hc

theorem Above.grown (h : Above n d) (hd : d.Grown d') (hn : n ≤ d.size) : Above n d' := by
  intro y hy c hc
  by_cases hlt : y < d.size
  · rw [refs, hd.node_eq y hlt] at hc
    exact h y hy c hc
  · exact le_trans hn (hd.refs_ge y (not_lt.mp hlt) c hc)

theorem Above.thinned (h : Above n d) (hd : d.Thinned d') : Above n d' :=
  fun y hy c hc => h y hy c ((hd.refs_sublist y).subset hc)

theorem Above.setChildren {b : Branch} (h : Above n d) (hb : ∀ c ∈ b.nodes, n ≤ c)
    (x : NodeId) : Above n (d.setChildren x b) := by
  intro y hy c hc
  by_cases hyx : y = x
  · subst hyx
    by_cases hlt : y < d.size
    · rw [Document.setChildren, refs_modify_self hlt] at hc
      rcases List.mem_append.mp ((Node.references_perm _).mem_iff.mp hc) with hc | hc
      · exact h y hy c (Node.body_refs_sub _ hc)
      · rw [flatMap_singleton] at hc
        exact hb c hc
    · rw [refs_of_le (by rw [Document.setChildren, size_modify]; exact not_lt.mp hlt)] at hc
      cases hc
  · rw [Document.setChildren, refs_modify_ne hyx] at hc
    exact h y hy c hc

theorem fill_sustained (h : d.Grove L) (hc : ∀ c ∈ content.nodes, c < d.size)
    (hx : x < d.size) : d.Sustained (((d.duplicateBranch content).2.setKind x .expanded).setChildren x
      (d.duplicateBranch content).1) L := by
  obtain ⟨hcopy, hgrown, hnew⟩ := h.duplicateBranch hc
  have hexpand := expand_sustained hgrown hcopy hx hnew .expanded
  exact ⟨hexpand.grove, le_trans hgrown.size_le hexpand.size_le⟩

theorem Above.fill (ha : Above n d) (h : d.Grove L)
    (hc : ∀ c ∈ content.nodes, c < d.size) (hn : n ≤ d.size) (x : NodeId) :
    Above n (((d.duplicateBranch content).2.setKind x .expanded).setChildren x
      (d.duplicateBranch content).1) := by
  obtain ⟨-, hgrown, hnew⟩ := h.duplicateBranch hc
  exact ((ha.grown hgrown hn).thinned (.setKind _ x .expanded)).setChildren
    (fun c hcmem => le_trans hn (hnew c hcmem)) x

theorem fillVariable_sustained (h : d.Grove L)
    (hc : ∀ c ∈ content.nodes, c < d.size) (hn : n ≤ d.size) (ha : Above n d) (id : NodeId)
    (name : String) : d.Sustained (fillVariable id name content d) L ∧
      Above n (fillVariable id name content d) := by
  refine h.sustained_foldl_with (fun {x d'} hx hle h' ha' => ?_) ha
  have hc' : ∀ c ∈ content.nodes, c < d'.size := fun c hcmem => lt_of_lt_of_le (hc c hcmem) hle
  split_ifs
  · exact ⟨fill_sustained h' hc' (lt_of_lt_of_le (h.lt_of_descendant hx) hle),
      ha'.fill h' hc' (le_trans hn hle) x⟩
  · exact ⟨.refl h', ha'⟩

theorem not_reaches_held {A : List NodeId} (h : d.Grove (A ++ (x :: L))) (hc : c ∈ A) :
    ¬ Reaches d.refs c x :=
  (h.perm perm_middle).not_reaches_head (mem_append_left _ hc)

theorem root_lt (h : d.Grove (root :: L)) : root < d.size := h.lt_head

theorem embed_grove {template : Document} (ht : template.Grove (root :: M)) (h : d.Grove L) :
    (embed template d).2.Grove ((embed template d).1 :: L) ∧ d.size ≤ (embed template d).2.size := by
  obtain ⟨hg, hgrown⟩ := h.graft ht (root_lt ht)
  have hkind := setKind_sustained hg (d.graft template root).1 .expanded
  exact ⟨hkind.grove, le_trans hgrown.size_le hkind.size_le⟩

theorem replaceNode_sustained (h : d.Grove (id :: root :: L)) (x : NodeId) :
    d.Sustained (d.replaceNode x [.node id]).2 (root :: L) :=
  Grove.replaceNode h

theorem lt_of_child (h : d.Grove L) (id : NodeId) : ∀ c ∈ (d.children id).nodes, c < d.size :=
  fun _ hc => h.lt_of_refs (refs_of_children hc)

theorem lt_of_topNode {kinds : List Kind} (h : d.Grove L) : ∀ x ∈ topNodes d kinds, x < d.size :=
  fun x hx => lt_of_child h root x (mem_of_mem_filter hx)

theorem overrideBlock_sustained {block : NodeId} (hchild : child.Grove M)
    (hlt : block < base.size) (h : base.Grove L) :
    base.Sustained (overrideBlock child base block) L := by
  rw [overrideBlock]
  split
  · exact .refl h
  · next replacement hfound =>
    obtain ⟨name, -, hnamed⟩ := Option.bind_eq_some_iff.mp hfound
    have hrep : replacement < child.size :=
      hchild.lt_of_descendant (mem_reverse.mp (mem_of_find?_eq_some hnamed))
    obtain ⟨hg, hgrown⟩ := h.graft hchild hrep
    set base1 := (base.graft child replacement).2
    obtain ⟨hfill, habove⟩ := fillVariable_sustained hg (lt_of_child hg block) hgrown.size_le hgrown.refs_ge
      base.size "block.super"
    set base2 := fillVariable base.size "block.super" (base1.children block) base1
    -- the copy of the block is emptied, and what it held becomes the content of the block
    have htake := hfill.grove.tended_takeBranch .refl 0
    have hsize : base.size ≤ base2.size := le_trans hgrown.size_le hfill.size_le
    have hput : (base2.setBranch base.size 0 []).Grove ((base2.branch base.size 0).nodes ++ L) := by
      refine htake.grove.sublist ?_
      rw [append_assoc]
      exact List.Sublist.append_left (sublist_cons_self _ _) _
    have hset := hput.sustained_setBranch (x := block) (by
      rw [setBranch, size_modify]
      exact lt_of_lt_of_le hlt hsize) (fun c hc hr => ?_) 0
    · refine ⟨hset.grove, le_trans hsize (le_trans ?_ hset.size_le)⟩
      exact htake.frame.size_le
    · have hthin : base2.Thinned (base2.setBranch base.size 0 []) :=
        .setBranch_zero (nil_sublist _)
      have hle := (habove.thinned hthin).le_of_reaches
        (habove base.size (le_refl _) c (refs_of_mem hc)) hr
      exact not_lt.mpr hle hlt

theorem overrideBlocks_sustained (hchild : child.Grove M)
    (h : base.Grove L) : base.Sustained (overrideBlocks child base) L :=
  h.sustained_foldl (fun _ hlt h' => overrideBlock_sustained hchild hlt h')
    fun _ hx => h.lt_of_descendant hx

def copyTag (child : Document) (built : List Fragment × Document) (id : NodeId) :
    List Fragment × Document :=
  (built.1 ++ [.node (built.2.graft child id).1], (built.2.graft child id).2)

theorem hoistTags_eq (child base : Document) : hoistTags child base =
    let built := (topNodes child [.loadTag, .config]).foldl (copyTag child) ([], base)
    built.2.prepend root built.1 := rfl

theorem foldl_copyTag_grove (hchild : child.Grove M) {l : List NodeId}
    (hl : ∀ x ∈ l, x < child.size) {built : List Fragment × Document}
    (h : built.2.Grove (Branch.nodes built.1 ++ L)) :
    (l.foldl (copyTag child) built).2.Grove
        (Branch.nodes (l.foldl (copyTag child) built).1 ++ L) ∧
      built.2.size ≤ (l.foldl (copyTag child) built).2.size := by
  refine List.foldlRecOn (motive := fun made : List Fragment × Document =>
    made.2.Grove (Branch.nodes made.1 ++ L) ∧ built.2.size ≤ made.2.size) l _ ⟨h, le_refl _⟩
    fun made ⟨hg, hle⟩ x hx => ?_
  obtain ⟨hg', hgrown⟩ := hg.graft hchild (hl x hx)
  refine ⟨hg'.perm ?_, le_trans hle hgrown.size_le⟩
  rw [copyTag, Branch.nodes_append, append_assoc]
  exact perm_middle.symm

theorem hoistTags_sustained (hchild : child.Grove M)
    (h : base.Grove (root :: L)) : base.Sustained (hoistTags child base) (root :: L) := by
  have hstart : (([], base) : List Fragment × Document).2.Grove (Branch.nodes [] ++ (root :: L)) := h
  obtain ⟨hg, hsize⟩ := foldl_copyTag_grove hchild (lt_of_topNode hchild) hstart
  rw [hoistTags_eq]
  have hprepend := hg.prepend (lt_of_lt_of_le (root_lt h) hsize) fun c hc hr => ?_
  · exact ⟨hprepend.grove, le_trans hsize hprepend.size_le⟩
  · exact not_reaches_held hg hc hr

structure Loader.Plants (load : Loader) : Prop where
  grove : ∀ {name : String} {place : Place} {s s' : Session} {d : Document},
    load name place s = .ok d s' → d.Grove [root]

variable {load : Loader}

theorem extend_eq_ok (hok : extend load child s = .ok d s') :
    (topNodes child [.extendsTag]).head? = none ∧ d = child ∨
      ∃ tag name base s1, (topNodes child [.extendsTag]).head? = some tag ∧
        literalArgument? child tag 1 = some name ∧ load name (child.place tag) s = .ok base s1 ∧
        d = hoistTags child (overrideBlocks child base) := by
  rw [extend] at hok
  cases htag : (topNodes child [.extendsTag]).head? with
  | none =>
    rw [htag] at hok
    obtain ⟨rfl, -⟩ := pure_eq_ok.mp hok
    exact .inl ⟨rfl, rfl⟩
  | some tag =>
    rw [htag] at hok
    dsimp only at hok
    cases hname : literalArgument? child tag 1 with
    | none => rw [hname] at hok; cases hok
    | some name =>
      rw [hname] at hok
      obtain ⟨base, s1, hload, hok⟩ := bind_eq_ok.mp hok
      refine .inr ⟨tag, name, base, s1, rfl, hname, hload, ?_⟩
      cases horphan : orphan? child base with
      | some id =>
        rw [horphan] at hok
        obtain ⟨_, s2, -, hok⟩ := bind_eq_ok.mp hok
        exact (pure_eq_ok.mp hok).1.symm
      | none =>
        rw [horphan] at hok
        exact (pure_eq_ok.mp hok).1.symm

theorem extend_grove (hl : load.Plants) (h : child.Grove [root])
    (hok : extend load child s = .ok d s') : d.Grove [root] := by
  obtain ⟨-, rfl⟩ | ⟨tag, name, base, s1, -, -, hload, rfl⟩ := extend_eq_ok hok
  · exact h
  · exact (hoistTags_sustained h (overrideBlocks_sustained h (hl.grove hload)).grove).grove

theorem expandInclude_sustains (hl : load.Plants) (id : NodeId) :
    Work.Sustains (root :: L) (expandInclude load id) := by
  refine .document_bind fun d => ?_
  split
  · exact .pure ()
  · refine .task_bind (P := fun t : Document => t.Grove [root]) hl.grove
      fun template ht => ?_
    refine .apply fun h => ?_
    obtain ⟨hembed, hle⟩ := embed_grove ht h
    have hreplace := replaceNode_sustained hembed id
    exact ⟨hreplace.grove, le_trans hle hreplace.size_le⟩

theorem expandIncludes_sustains (hl : load.Plants) : Work.Sustains (root :: L) (expandIncludes load) :=
  .document_bind fun _ => .forM (expandInclude_sustains hl) _

theorem decorate_sustained {e : NodeId × Document} (hembed : e.2.Grove (e.1 :: root :: L))
    (id : NodeId) (name : String) : e.2.Sustained
      ((fillVariable e.1 name (e.2.children id) e.2).replaceNode id [.node e.1]).2 (root :: L) := by
  have hfill := (fillVariable_sustained (n := 0) hembed (lt_of_child hembed id) (Nat.zero_le _)
    (fun _ _ _ _ => Nat.zero_le _) e.1 name).1
  exact hfill.trans (replaceNode_sustained hfill.grove id)

theorem expandDecorate_eq_ok {id node : NodeId} {j j' : Job}
    (hok : expandDecorate load id j = .ok node j') : ∃ name template s e,
      load name (j.document.place id) j.session = .ok template s ∧ embed template j.document = e ∧
        node = e.1 ∧ j' = ⟨s, ((fillVariable e.1 "decorater.content" (e.2.children id) e.2).replaceNode
          id [.node e.1]).2⟩ := by
  rw [expandDecorate, Work.document_bind] at hok
  cases hname : literalArgument? j.document id 1 with
  | none => rw [hname] at hok; cases hok
  | some name =>
    rw [hname] at hok
    obtain ⟨template, j1, htask, hok⟩ := bind_eq_ok.mp hok
    obtain ⟨s, hload, rfl⟩ := Work.task_eq_ok.mp htask
    obtain ⟨node', j2, hperform, hok⟩ := bind_eq_ok.mp hok
    obtain ⟨rfl, rfl⟩ := Work.perform_eq_ok.mp hperform
    obtain ⟨_, j3, happly, hok⟩ := bind_eq_ok.mp hok
    obtain rfl := Work.apply_eq_ok.mp happly
    obtain ⟨rfl, rfl⟩ := pure_eq_ok.mp hok
    exact ⟨name, template, s, _, hload, rfl, rfl, rfl⟩

theorem expandDecorate_sustains (hl : load.Plants) (id : NodeId) :
    Work.Sustains (root :: L) (expandDecorate load id) where
  sustained h hok := by
    obtain ⟨_, _, _, e, hload, rfl, -, rfl⟩ := expandDecorate_eq_ok hok
    obtain ⟨hembed, hle⟩ := embed_grove (hl.grove hload) h
    have hdecorate := decorate_sustained hembed id "decorater.content"
    exact ⟨hdecorate.grove, le_trans hle hdecorate.size_le⟩

theorem expandDecoratesBelow_sustains (hl : load.Plants) (levels : Nat) (id : NodeId) :
    Work.Sustains (root :: L) (expandDecoratesBelow load levels id) := by
  induction levels generalizing id with
  | zero => exact .pure ()
  | succ levels ih =>
    exact .document_bind fun _ => .forM
      (fun tag => (expandDecorate_sustains hl tag).bind fun node => ih node) _

theorem expandDecorates_sustains (hl : load.Plants) :
    Work.Sustains (root :: L) (expandDecorates load) :=
  .document_bind fun d => expandDecoratesBelow_sustains hl d.size root

theorem specialize_thinned (d : Document) : d.Thinned (specialize d) := by
  refine .foldl fun d x _ => ?_
  split
  · exact .setKind d x _
  · exact .refl d

theorem parse_sustains : Work.Sustains (root :: L) (Work.edit parse) := by
  refine .edit fun {d d'} _ h hok => ?_
  obtain ⟨_, d1, htok, hok⟩ := bind_eq_ok.mp hok
  obtain ⟨_, d2, hspecial, hok⟩ := bind_eq_ok.mp hok
  cases hspecial
  have h1 : d.Sustained d1 (root :: L) := (Grammar.tokenize_tended h .refl htok).1.sustained
  have h2 := (specialize_thinned d1).sustained h1.grove
  have h3 : (specialize d1).Sustained d' (root :: L) := (Nesting.nest_tended h2.grove hok).sustained
  exact h1.trans (h2.trans h3)

theorem applyConfig_sustains : Work.Sustains L applyConfig :=
  .document_bind fun _ => .forM (fun _ => .forM (fun _ => .task _) _) _

theorem substituteVariables_thinned (values : List (String × String)) (d : Document) :
    d.Thinned (substituteVariables values d) := by
  refine .foldl fun d x _ => ?_
  split
  · exact (Thinned.setKind d x _).trans (.setChildren _ x rfl)
  · exact .refl d

theorem resolveDebug_sustained (h : d.Grove (root :: L)) (debug : Bool) :
    d.Sustained (resolveDebug debug d) (root :: L) := by
  rw [resolveDebug]
  split_ifs
  · exact h.sustained_collapseKind (root_lt h) .ifDebug
  · exact h.sustained_removeKind (root_lt h) .ifDebug

theorem expandCall_sustained {definitions : List NodeId} {call : NodeId}
    (h : d.Grove (root :: L)) : d.Sustained (expandCall definitions d call) (root :: L) := by
  rw [expandCall]
  split
  · exact .refl h
  · next definition _ =>
    obtain ⟨hcopy, hgrown, -⟩ := h.duplicateBranch (lt_of_child h definition)
    generalize d.duplicateBranch (d.children definition) = copied at hcopy hgrown
    have hcreate := hcopy.create .expanded (d.place call)
    have hsize : copied.2.size < (copied.2.create .expanded (d.place call)).2.size := by
      rw [size_create]
      exact Nat.lt_succ_self _
    have hput : (copied.2.create .expanded (d.place call)).2.Grove
        (copied.1.nodes ++ (copied.2.size :: root :: L)) := hcreate.perm perm_middle.symm
    have hset := hput.setChildren hsize fun c hc hr => ?_
    · have hreplace := replaceNode_sustained hset.grove call
      exact ⟨hreplace.grove, le_trans hgrown.size_le (le_trans (le_of_lt hsize)
        (le_trans hset.size_le hreplace.size_le))⟩
    · exact not_reaches_held hput hc hr

theorem expandMacros_sustained (h : d.Grove (root :: L)) :
    d.Sustained (expandMacros d) (root :: L) := by
  have hcalls : d.Sustained ((nodesOf d [.callMacro]).foldl
      (expandCall (nodesOf d [.macroDef])) d) (root :: L) :=
    h.sustained_foldl (fun _ _ h' => expandCall_sustained h') fun _ hx => h.lt_of_descendant hx
  exact hcalls.trans (hcalls.grove.sust_removeNodes (root_lt hcalls.grove) _)

theorem makeElements_grove (place : Place) (elements : List String) (h : d.Grove L) :
    (makeElements place elements d).2.Grove ((makeElements place elements d).1.nodes ++ L) ∧
      d.size ≤ (makeElements place elements d).2.size := by
  induction elements generalizing d L with
  | nil => exact ⟨h, le_refl _⟩
  | cons element more ih =>
    obtain ⟨hg, hsize, -⟩ := h.create_text .tagElement place element
    obtain ⟨hmore, hle⟩ := ih hg
    refine ⟨hmore.perm ?_, le_trans (le_of_lt hsize) hle⟩
    have hnodes : (makeElements place (element :: more) d).1.nodes = d.size ::
        (makeElements place more ((d.create .tagElement place).2.appendText d.size element)).1.nodes := by
      rw [makeElements]
      dsimp only
      rw [Branch.nodes_cons_node]
      split_ifs with hemp
      · exact congrArg (fun b => d.size :: Branch.nodes b) (isEmpty_iff.mp hemp).symm
      · rfl
    rw [hnodes]
    exact perm_middle

theorem groupLoads_sustained (h : d.Grove (root :: L)) : d.Sustained (groupLoads d) (root :: L) := by
  rw [groupLoads]
  cases hloads : (nodesOf d [.loadTag]).filter (!isFutureLoad d ·) with
  | nil => exact .refl h
  | cons first others =>
    dsimp only
    have hfirst : d.Encloses root first := encloses_of_descendant
      (mem_of_mem_filter (hloads ▸ mem_cons_self))
    obtain ⟨C, hremove, hC⟩ := h.removeNodes .refl (first :: others)
    have hremoved := hremove.grove.perm (List.Perm.append_right L
      (List.Perm.cons root (perm_cons_erase (hC first hfirst mem_cons_self))))
    obtain ⟨hmake, hle⟩ := makeElements_grove ((d.removeNodes root (first :: others)).place first)
      ("load" :: ((first :: others).flatMap fun id => (elements d id).drop 1).eraseDups) hremoved
    generalize makeElements _ _ (d.removeNodes root (first :: others)) = made at hmake hle
    have hheld : made.2.Grove (made.1.nodes ++ (first :: (root :: (C.erase first ++ L)))) :=
      hmake.perm (List.Perm.append_left _ (List.Perm.swap _ _ _))
    have hset := hheld.setChildren (hheld.lt_of_mem (mem_append_right _ mem_cons_self))
      fun c hc => not_reaches_held hheld hc
    have htop : (made.2.setChildren first made.1).Grove (Branch.nodes [.node first] ++
        (root :: (C.erase first ++ L))) := hset.grove
    have hprepend := htop.prepend
      (htop.lt_of_mem (mem_append_right _ mem_cons_self)) fun c hc => not_reaches_held htop hc
    refine ⟨hprepend.grove.sublist (.cons_cons root (sublist_append_right _ _)), ?_⟩
    exact le_trans hremove.frame.size_le (le_trans hle
      (le_trans hset.size_le hprepend.size_le))

theorem removeComments_sustained (h : d.Grove (root :: L)) :
    d.Sustained (removeComments d) (root :: L) :=
  h.sust_removeNodes (root_lt h) _

end Template

end Stencil
