import Stencil.Proofs.Template.Ownership
import Stencil.Proofs.Template.Parsing

/-!
# Passes keep the text of a template traced

Putting a template together copies parts of templates, and puts nodes in place of tags and content in
place of variables. The passes that follow take nodes out, put what they hold in their place, and put
values in place of variables. So **what is read as markup is traced to the files it comes from after
every pass**, if the templates that are loaded are.
-/

namespace Stencil

open Document List

variable {base child : Document} {l : List NodeId} {j j' : Job} {k : Kind} {place : Place}
  {s s' : Session} {V : String → Prop}

namespace Template

variable {S : Sources} {d d' : Document} {L M : List NodeId} {b : Branch}
  {id x : NodeId}

/-! ### Copies in place of variables and tags -/

theorem kind_of_descendant {kinds closed : List Kind}
    (h : x ∈ d.descendants id kinds closed) : d.kind x ∈ kinds :=
  contains_iff_mem.mp (mem_filter.mp h).2

theorem keepsKinds_of_grown (h : d.Grown d') : d.KeepsKinds d' :=
  ⟨h.size_le, fun x hx => .inl (by rw [kind, h.node_eq x hx]; rfl)⟩

theorem expand_traced (ht : d.Traced S V) (hk : d.kind x = .variableTag ∨ d.kind x = .expanded)
    (hb : b.Suits S V .expanded (d.place x)) :
    ((d.setKind x .expanded).setChildren x b).Traced S V ∧
      d.KeepsKinds ((d.setKind x .expanded).setChildren x b) := by
  rw [setKind, setChildren, modify_modify]
  have hsimple : d.kind x ∈ Kind.simple := by
    rcases hk with hk | hk <;> rw [hk] <;> decide
  refine ⟨ht.modify fun hx => (ht x hx).expand hsimple hb, ?_, fun y hy => ?_⟩
  · rw [size_modify]
  · by_cases hyx : y = x
    · subst hyx
      have hnew : ((d.modify y fun n => { n with kind := .expanded, branches := [b] }).kind y) =
          .expanded := by rw [kind, modify_self hy]
      rcases hk with hk | hk
      · exact .inr ⟨hk, hnew⟩
      · exact .inl (hnew.trans hk.symm)
    · exact .inl (by rw [kind, modify_ne hyx]; rfl)

theorem fillVariable_traced {content : Branch} (h : d.Grove L)
    (hc : ∀ c ∈ content.nodes, c < d.size) (hw : content.Wordless) (ht : d.Traced S V)
    (id : NodeId) (name : String) : (fillVariable id name content d).Traced S V ∧
      d.KeepsKinds (fillVariable id name content d) := by
  refine (h.sustained_foldl_with (I := fun e => e.Traced S V ∧ d.KeepsKinds e)
    (fun {x e} hx hle he hI => ?_) ⟨ht, .refl d⟩).2
  obtain ⟨hte, hke⟩ := hI
  have hxd : x < d.size := h.lt_of_descendant hx
  have hce : ∀ c ∈ content.nodes, c < e.size := fun c hcmem => lt_of_lt_of_le (hc c hcmem) hle
  split_ifs
  · refine ⟨fill_sustained he hce (lt_of_lt_of_le hxd hle), ?_⟩
    obtain ⟨-, hgrown, -⟩ := he.duplicateBranch hce
    have hcopy := hke.trans (keepsKinds_of_grown hgrown)
    have hvar := mem_singleton.mp (kind_of_descendant hx)
    have hkind := (hcopy.kind_eq x hxd).imp (·.trans hvar) And.right
    obtain ⟨ht', hk'⟩ := expand_traced (hte.duplicateBranch he hce) hkind
      (wordless_duplicateBranch hw e).suits
    exact ⟨ht', hcopy.trans hk'⟩
  · exact ⟨.refl he, hte, hke⟩

theorem embed_traced {template : Document} (hs : template.Grove (root :: M))
    (hts : template.Traced S V) (hroot : template.kind root = .root) (ht : d.Traced S V) :
    (embed template d).2.Traced S V ∧ d.KeepsKinds (embed template d).2 := by
  have hgraft : (d.graft template root).2.Traced S V := ht.graft hts hs (root_lt hs)
  have hkind : (d.graft template root).2.kind d.size = .root :=
    (kind_graft hs (root_lt hs)).trans hroot
  have hwordless := hgraft.wordless hkind (by decide)
  have hsimple : (d.graft template root).2.kind d.size ∈ Kind.simple := by rw [hkind]; decide
  refine ⟨hgraft.modify fun hlt => ?_, KeepsKinds.adopt.modify_new (le_refl _)⟩
  have hn := hgraft d.size hlt
  exact ⟨hn.file, hn.plain, fun _ => hn.bare hsimple, fun _ => hn.single hsimple,
    fun b hb => (hwordless b hb).suits⟩

/-! ### Extending -/

section

variable (hchild : child.Grove M) (htc : child.Traced S V)
include hchild htc

theorem overrideBlock_traced {block : NodeId} (h : base.Grove L) (ht : base.Traced S V)
    (hk : base.kind block = .block) (hlt : block < base.size) :
    (overrideBlock child base block).Traced S V ∧
      base.KeepsKinds (overrideBlock child base block) := by
  rw [overrideBlock]
  split
  · exact ⟨ht, .refl base⟩
  · next replacement hfound =>
    obtain ⟨name, -, hnamed⟩ := Option.bind_eq_some_iff.mp hfound
    have hmem := mem_reverse.mp (mem_of_find?_eq_some hnamed)
    have hrep : replacement < child.size := hchild.lt_of_descendant hmem
    obtain ⟨hg, hgrown⟩ := h.graft hchild hrep
    have ht1 : (base.graft child replacement).2.Traced S V := ht.graft htc hchild hrep
    have hcopy : (base.graft child replacement).2.kind base.size = .block :=
      (kind_graft hchild hrep).trans (mem_singleton.mp (kind_of_descendant hmem))
    have hlt1 : base.size < (base.graft child replacement).2.size :=
      hg.lt_head
    have hk1 := keepsKinds_of_grown hgrown
    have hblock1 : (base.graft child replacement).2.kind block = .block :=
      (hk1.kind_of_ne hlt (by rw [hk]; decide)).trans hk
    set base1 := (base.graft child replacement).2
    obtain ⟨ht2, hk2⟩ := fillVariable_traced hg (lt_of_child hg _)
      (ht1.wordless_children hblock1 (by decide)) ht1 base.size "block.super"
    have hcopy2 := (hk2.kind_of_ne hlt1 (by rw [hcopy]; decide)).trans hcopy
    set base2 := fillVariable base.size "block.super" (base1.children block) base1
    have hholds : (base2.branch base.size 0).Wordless := ht2.wordless_branch hcopy2 (by decide) 0
    have ht3 : (base2.setBranch base.size 0 []).Traced S V :=
      ht2.setBranch_zero Branch.Wordless.nil.suits
    have hk3 : base.KeepsKinds (base2.setBranch base.size 0 []) := (hk1.trans hk2).trans .setBranch
    exact ⟨ht3.setBranch_zero hholds.suits, hk3.trans .setBranch⟩

theorem overrideBlocks_traced (h : base.Grove L) (ht : base.Traced S V) :
    (overrideBlocks child base).Traced S V ∧ base.KeepsKinds (overrideBlocks child base) := by
  refine (h.sustained_foldl_with (I := fun e => e.Traced S V ∧ base.KeepsKinds e)
    (fun {x e} hx hle he hI => ?_) ⟨ht, .refl base⟩).2
  obtain ⟨hte, hke⟩ := hI
  have hxb : x < base.size := h.lt_of_descendant hx
  have hxe : x < e.size := lt_of_lt_of_le hxb hle
  have hblock := mem_singleton.mp (kind_of_descendant hx)
  obtain ⟨ht', hk'⟩ := overrideBlock_traced hchild htc he hte
    ((hke.kind_of_ne hxb (by rw [hblock]; decide)).trans hblock) hxe
  exact ⟨overrideBlock_sustained hchild hxe he, ht', hke.trans hk'⟩

theorem foldl_copyTag_traced (hl : ∀ x ∈ l, x < child.size) (built : List Fragment × Document)
    (ht : built.2.Traced S V) (hw : Branch.Wordless built.1) :
    (l.foldl (copyTag child) built).2.Traced S V ∧
      built.2.KeepsKinds (l.foldl (copyTag child) built).2 ∧
      Branch.Wordless (l.foldl (copyTag child) built).1 :=
  List.foldlRecOn (motive := fun made : List Fragment × Document => made.2.Traced S V ∧
    built.2.KeepsKinds made.2 ∧ Branch.Wordless made.1) l _ ⟨ht, .refl _, hw⟩ fun _ ⟨ht, hk, hw⟩ x hx =>
    ⟨ht.graft htc hchild (hl x hx), hk.trans .adopt, hw.append (.singleton _)⟩

theorem hoistTags_traced
    (ht : base.Traced S V) (hroot : base.kind root = .root) (hlt : root < base.size) :
    (hoistTags child base).Traced S V ∧ base.KeepsKinds (hoistTags child base) := by
  obtain ⟨ht', hk', hw⟩ := foldl_copyTag_traced hchild htc (lt_of_topNode hchild) ([], base) ht .nil
  rw [hoistTags_eq]
  have hroot' := (hk'.kind_of_ne hlt (by rw [hroot]; decide)).trans hroot
  obtain ⟨ht'', hk''⟩ := ht'.prepend hroot' (by decide) hw
  exact ⟨ht'', hk'.trans hk''⟩

end

/-! ### Loaded templates -/

/-- A loader that gives templates whose text is traced, as long as they come from a library. -/
structure Loader.Traces (lib : Library) (S : Sources) (V : String → Prop) (load : Loader) :
    Prop where
  sourced : ∀ {name : String} {place : Place} {s s' : Session} {d : Document},
    s.templates = lib → load name place s = .ok d s' → Sourced S V d ∧ s'.templates = lib

variable {lib : Library} {load : Loader}

theorem extend_sourced (hl : load.Traces lib S V) (h : Sourced S V child)
    (hs : s.templates = lib) (hok : extend load child s = .ok d s') : Sourced S V d := by
  obtain ⟨-, rfl⟩ | ⟨_, _, base, _, -, -, hload, rfl⟩ := extend_eq_ok hok
  · exact h
  · obtain ⟨hbase, -⟩ := hl.sourced hs hload
    have hover : Sourced S V (overrideBlocks child base) := hbase.step
      (overrideBlocks_sustained h.grove hbase.grove).grove
      (overrideBlocks_traced h.grove h.traced hbase.grove hbase.traced)
    exact hover.step (hoistTags_sustained h.grove hover.grove).grove
      (hoistTags_traced h.grove h.traced hover.traced hover.root_kind hover.root_lt)

/-! ### Including and decorating -/

/-- Where the work succeeds on a template, it leaves one and the library. -/
def Leaves (lib : Library) (S : Sources) (V : String → Prop) (j j' : Job) : Prop :=
  j'.session.templates = lib ∧ Sourced S V j'.document ∧ j.document.KeepsKinds j'.document

theorem forM_leaves {f : NodeId → Work Unit} (hk : k ≠ .variableTag)
    (hf : ∀ {x : NodeId} {j j' : Job}, x < j.document.size → j.document.kind x = k →
      j.session.templates = lib → Sourced S V j.document → f x j = .ok () j' → Leaves lib S V j j')
    (hl : ∀ x ∈ l, x < j.document.size ∧ j.document.kind x = k)
    (hlib : j.session.templates = lib) (h : Sourced S V j.document)
    (hok : l.forM f j = .ok () j') : Leaves lib S V j j' := by
  induction l generalizing j with
  | nil =>
    obtain ⟨-, rfl⟩ := pure_eq_ok.mp hok
    exact ⟨hlib, h, .refl _⟩
  | cons x l ih =>
    obtain ⟨_, j1, hok1, hok2⟩ := bind_eq_ok.mp hok
    obtain ⟨⟨hx, hxk⟩, hl⟩ := forall_mem_cons.mp hl
    obtain ⟨hlib1, h1, hkinds1⟩ := hf hx hxk hlib h hok1
    have hl1 : ∀ y ∈ l, y < j1.document.size ∧ j1.document.kind y = k := fun y hy => by
      obtain ⟨hlt, hyk⟩ := hl y hy
      exact ⟨lt_of_lt_of_le hlt hkinds1.size_le,
        (hkinds1.kind_of_ne hlt (by rw [hyk]; exact hk)).trans hyk⟩
    obtain ⟨hlib2, h2, hkinds2⟩ := ih hl1 hlib1 h1 hok2
    exact ⟨hlib2, h2, hkinds1.trans hkinds2⟩

section

variable (hl : load.Traces lib S V) (hlib : j.session.templates = lib) (h : Sourced S V j.document)
include hl hlib h

theorem expandInclude_leaves (hok : expandInclude load x j = .ok () j') : Leaves lib S V j j' := by
  rw [expandInclude, Work.document_bind] at hok
  cases hname : includedName? j.document x with
  | none =>
    rw [hname] at hok
    obtain ⟨-, rfl⟩ := pure_eq_ok.mp hok
    exact ⟨hlib, h, .refl _⟩
  | some name =>
    rw [hname] at hok
    obtain ⟨template, j1, htask, hok⟩ := bind_eq_ok.mp hok
    obtain ⟨s, hload, rfl⟩ := Work.task_eq_ok.mp htask
    obtain rfl := Work.apply_eq_ok.mp hok
    obtain ⟨htemplate, hlib'⟩ := hl.sourced hlib hload
    obtain ⟨hembed, hkinds⟩ := embed_traced htemplate.grove htemplate.traced htemplate.root_kind
      h.traced
    obtain ⟨hg, -⟩ := embed_grove htemplate.grove h.grove
    obtain ⟨hreplace, hkinds'⟩ := hembed.replaceNode (x := x)
      (Branch.Wordless.singleton (embed template j.document).1)
    exact ⟨hlib', h.step (replaceNode_sustained hg x).grove ⟨hreplace, hkinds.trans hkinds'⟩,
      hkinds.trans hkinds'⟩

theorem expandIncludes_leaves (hok : expandIncludes load j = .ok () j') : Leaves lib S V j j' := by
  rw [expandIncludes, Work.document_bind] at hok
  refine forM_leaves (k := .includeTag) (by decide) (fun _ _ => expandInclude_leaves hl)
    (fun x hx => ⟨h.grove.lt_of_descendant hx, ?_⟩) hlib h hok
  exact mem_singleton.mp (kind_of_descendant hx)

end

theorem expandDecorate_leaves (hl : load.Traces lib S V) {node : NodeId}
    (hlt : x < j.document.size) (hk : j.document.kind x = .decorate)
    (hlib : j.session.templates = lib) (h : Sourced S V j.document)
    (hok : expandDecorate load x j = .ok node j') : Leaves lib S V j j' := by
  obtain ⟨_, _, _, e, hload, he, -, rfl⟩ := expandDecorate_eq_ok hok
  obtain ⟨htemplate, hlib'⟩ := hl.sourced hlib hload
  obtain ⟨hembed, hkinds⟩ := embed_traced htemplate.grove htemplate.traced htemplate.root_kind
    h.traced
  obtain ⟨hg, -⟩ := embed_grove htemplate.grove h.grove
  rw [he] at hembed hkinds hg
  have hke : e.2.kind x = .decorate := (hkinds.kind_of_ne hlt (by rw [hk]; decide)).trans hk
  obtain ⟨hfill, hkinds1⟩ := fillVariable_traced hg (lt_of_child hg _)
    (hembed.wordless_children hke (by decide)) hembed e.1 "decorater.content"
  obtain ⟨hreplace, hkinds2⟩ := hfill.replaceNode (x := x) (Branch.Wordless.singleton e.1)
  have hall := hkinds.trans (hkinds1.trans hkinds2)
  exact ⟨hlib', h.step (decorate_sustained hg x "decorater.content").grove ⟨hreplace, hall⟩, hall⟩

theorem expandDecoratesBelow_leaves (hl : load.Traces lib S V) (levels : Nat) (id : NodeId)
    (hlib : j.session.templates = lib) (h : Sourced S V j.document)
    (hok : expandDecoratesBelow load levels id j = .ok () j') : Leaves lib S V j j' := by
  induction levels generalizing id j j' with
  | zero =>
    obtain ⟨-, rfl⟩ := pure_eq_ok.mp hok
    exact ⟨hlib, h, .refl _⟩
  | succ levels ih =>
    rw [expandDecoratesBelow, Work.document_bind] at hok
    refine forM_leaves (k := .decorate) (by decide) (fun {x j j'} hlt hk hlib h hok => ?_)
      (fun x hx => ⟨h.grove.lt_of_descendant hx, ?_⟩) hlib h hok
    · obtain ⟨node, j1, hok1, hok2⟩ := bind_eq_ok.mp hok
      obtain ⟨hlib1, h1, hkinds1⟩ := expandDecorate_leaves hl hlt hk hlib h hok1
      obtain ⟨hlib2, h2, hkinds2⟩ := ih node hlib1 h1 hok2
      exact ⟨hlib2, h2, hkinds1.trans hkinds2⟩
    · exact mem_singleton.mp (kind_of_descendant hx)

/-! ### The passes -/

theorem Sourced.substituteVariables (h : Sourced S V d) {values : List (String × String)}
    (hV : ∀ name value, (name, value) ∈ values → V value) :
    Sourced S V (substituteVariables values d) := by
  refine h.step ((substituteVariables_thinned values d).sustained h.grove).grove ?_
  refine (h.grove.sustained_foldl_with (I := fun e => e.Traced S V ∧ d.KeepsKinds e)
    (fun {x e} hx hle he hI => ?_) ⟨h.traced, .refl d⟩).2
  obtain ⟨hte, hke⟩ := hI
  cases hvalue : values.lookup (variableName e x) with
  | none => exact ⟨.refl he, hte, hke⟩
  | some value =>
    have hvar := mem_singleton.mp (kind_of_descendant hx)
    have hkind := (hke.kind_eq x (h.grove.lt_of_descendant hx)).imp (·.trans hvar) And.right
    have hmem : V value := hV _ value (mem_of_lookup hvalue)
    obtain ⟨ht', hk'⟩ := expand_traced (b := [.text value]) hte hkind
      ⟨fun hk => absurd hk (by decide), fun hk => absurd hk (by decide),
        fun _ => .inr ⟨value, rfl, hmem⟩⟩
    exact ⟨((Thinned.setKind e x _).trans (.setChildren _ x rfl)).sustained he, ht', hke.trans hk'⟩

theorem expandCall_traced {definitions : List NodeId} {call : NodeId} (h : d.Grove (root :: L))
    (ht : d.Traced S V) (hcall : call < d.size)
    (hdefinitions : ∀ x ∈ definitions, d.kind x = .macroDef) :
    (expandCall definitions d call).Traced S V ∧ d.KeepsKinds (expandCall definitions d call) := by
  rw [expandCall]
  split
  · exact ⟨ht, .refl d⟩
  · next definition hfound =>
    obtain ⟨name, -, hnamed⟩ := Option.bind_eq_some_iff.mp hfound
    have hkind := hdefinitions definition (mem_reverse.mp (mem_of_find?_eq_some hnamed))
    obtain ⟨-, hgrown, -⟩ := h.duplicateBranch (lt_of_child h definition)
    have hcopy := ht.duplicateBranch h (lt_of_child h definition)
    have hwordless := wordless_duplicateBranch (ht.wordless_children hkind (by decide)) d
    generalize d.duplicateBranch (d.children definition) = copied at hgrown hcopy hwordless
    have hcreate := hcopy.create .expanded (ht call hcall).file
    obtain ⟨hreplace, hkinds⟩ := (hcreate.setChildren hwordless.suits).replaceNode
      (x := call) (Branch.Wordless.singleton copied.2.size)
    have hset : copied.2.KeepsKinds
        ((copied.2.create .expanded (d.place call)).2.setChildren copied.2.size copied.1) :=
      (KeepsKinds.create _ _).trans (.modify fun _ => rfl)
    exact ⟨hreplace, (keepsKinds_of_grown hgrown).trans (hset.trans hkinds)⟩

theorem Sourced.expandMacros (h : Sourced S V d) : Sourced S V (expandMacros d) := by
  refine h.step (expandMacros_sustained h.grove).grove ?_
  have hcalls : ((nodesOf d [.callMacro]).foldl (expandCall (nodesOf d [.macroDef])) d).Traced S V ∧
      d.KeepsKinds ((nodesOf d [.callMacro]).foldl (expandCall (nodesOf d [.macroDef])) d) := by
    refine (h.grove.sustained_foldl_with (I := fun e => e.Traced S V ∧ d.KeepsKinds e)
      (fun {x e} hx hle he hI => ?_) ⟨h.traced, .refl d⟩).2
    obtain ⟨hte, hke⟩ := hI
    have hmacros : ∀ y ∈ nodesOf d [.macroDef], e.kind y = .macroDef := fun y hy => by
      have hdef : d.kind y = .macroDef := mem_singleton.mp (kind_of_descendant hy)
      exact (hke.kind_of_ne (h.grove.lt_of_descendant hy)
        (by rw [hdef]; decide)).trans hdef
    obtain ⟨ht', hk'⟩ := expandCall_traced he hte
      (lt_of_lt_of_le (h.grove.lt_of_descendant hx) hle) hmacros
    exact ⟨expandCall_sustained he, ht', hke.trans hk'⟩
  obtain ⟨ht, hl⟩ := hcalls.1.removeNodes root (nodesOf d [.macroDef])
  exact ⟨ht, hcalls.2.trans hl.keepsKinds⟩

theorem Sourced.collapseKind (h : Sourced S V d) (hk : k ∈ Kind.holders) :
    Sourced S V (d.collapseKind root k) := by
  obtain ⟨ht, hl⟩ := h.traced.collapseKind root hk
  exact h.step (h.grove.sustained_collapseKind h.root_lt k).grove ⟨ht, hl.keepsKinds⟩

theorem Sourced.removeNodes (h : Sourced S V d) (removed : List NodeId) :
    Sourced S V (d.removeNodes root removed) := by
  obtain ⟨ht, hl⟩ := h.traced.removeNodes root removed
  exact h.step (h.grove.sust_removeNodes h.root_lt removed).grove ⟨ht, hl.keepsKinds⟩

theorem Sourced.resolveDebug (h : Sourced S V d) (debug : Bool) :
    Sourced S V (resolveDebug debug d) := by
  rw [Template.resolveDebug]
  split_ifs
  · exact h.collapseKind (by decide)
  · exact h.removeNodes _

theorem makeElements_traced (hp : ∃ text, S place.path text)
    (elements : List String) (ht : d.Traced S V) :
    (makeElements place elements d).2.Traced S V ∧
      d.KeepsKinds (makeElements place elements d).2 := by
  induction elements generalizing d with
  | nil => exact ⟨ht, .refl d⟩
  | cons element more ih =>
    have hcreate := ht.create .tagElement hp
    have happend : ((d.create .tagElement place).2.appendText d.size element).Traced S V ∧
        d.KeepsKinds ((d.create .tagElement place).2.appendText d.size element) := by
      rw [appendText]
      split_ifs
      · exact ⟨hcreate, .create _ _⟩
      · refine ⟨hcreate.modify fun hlt => ?_, (KeepsKinds.create _ _).trans (.modify fun _ => rfl)⟩
        rw [create_self]
        exact (Node.Traced.fresh hp).setBranch (fun _ => Nat.one_pos)
          (.of_not_watched (show Kind.tagElement ∉ Kind.watched by decide))
    obtain ⟨ht', hk'⟩ := ih happend.1
    exact ⟨ht', happend.2.trans hk'⟩

theorem Sourced.groupLoads (h : Sourced S V d) : Sourced S V (groupLoads d) := by
  refine h.step (groupLoads_sustained h.grove).grove ?_
  rw [Template.groupLoads]
  cases hloads : (nodesOf d [.loadTag]).filter (!isFutureLoad d ·) with
  | nil => exact ⟨h.traced, .refl d⟩
  | cons first others =>
    have hmem : first ∈ nodesOf d [.loadTag] :=
      mem_of_mem_filter (hloads ▸ mem_cons_self)
    have hlt : first < d.size := h.grove.lt_of_descendant hmem
    have hload : d.kind first = .loadTag := mem_singleton.mp (kind_of_descendant hmem)
    obtain ⟨hremove, hlabelled⟩ := h.traced.removeNodes root (first :: others)
    have hfile : ∃ text, S ((d.removeNodes root (first :: others)).place first).path text :=
      (hremove first (hlabelled.size_eq.symm ▸ hlt)).file
    dsimp only
    generalize "load" :: List.eraseDups _ = modules
    obtain ⟨hmake, hkinds⟩ := makeElements_traced hfile modules hremove
    have hkinds := hlabelled.keepsKinds.trans hkinds
    generalize makeElements _ modules _ = made at hmake hkinds ⊢
    have hfirst := (hkinds.kind_of_ne hlt (by rw [hload]; decide)).trans hload
    have hset : (made.2.setChildren first made.1).Traced S V :=
      hmake.setChildren (.of_not_watched (by rw [hfirst]; decide))
    have hkinds' : d.KeepsKinds (made.2.setChildren first made.1) :=
      hkinds.trans (.modify fun _ => rfl)
    have hroot' := (hkinds'.kind_of_ne h.root_lt (by rw [h.root_kind]; decide)).trans h.root_kind
    obtain ⟨ht, hkinds''⟩ := hset.prepend hroot' (by decide) (.singleton first)
    exact ⟨ht, hkinds'.trans hkinds''⟩

end Template

/-! ### Putting a template together -/

section

variable {S : Sources} {lib : Library} {load : Template.Loader}
  {path source : String}

open Template

theorem assemble_sourced (hr : load.Resumes) (hl : load.Traces lib S V) (hS : S path source)
    (hlib : s.templates = lib)
    (hok : assemble load { session := s, document := ofSource path source } = .ok () j) :
    Sourced S V j.document := by
  obtain ⟨_, j1, hparse, hok⟩ := bind_eq_ok.mp hok
  obtain ⟨_, j2, hextends, hok⟩ := bind_eq_ok.mp hok
  obtain ⟨_, j3, hincludes, hdecorates⟩ := bind_eq_ok.mp hok
  obtain ⟨d, hparsed, rfl⟩ := Work.edit_eq_ok.mp hparse
  have h1 : Sourced S V d := parse_sourced hS hparsed
  have hlib2 : j2.session.templates = lib := by
    have hresumes := (resumes_along.expandExtends (g := load)
      (fun name place => Resuming.task (hr name place)) { session := s, document := d }).ok _ _ hextends
    exact hresumes.templates_eq.trans hlib
  rw [expandExtends, Work.document_bind] at hextends
  obtain ⟨d2, j', htask, happly⟩ := bind_eq_ok.mp hextends
  obtain ⟨s2, hextend, rfl⟩ := Work.task_eq_ok.mp htask
  obtain rfl := Work.apply_eq_ok.mp happly
  have h2 : Sourced S V d2 := extend_sourced hl h1 hlib hextend
  obtain ⟨hlib3, h3, -⟩ := expandIncludes_leaves hl hlib2 h2 hincludes
  rw [expandDecorates, Work.document_bind] at hdecorates
  obtain ⟨-, h4, -⟩ := expandDecoratesBelow_leaves hl _ root hlib3 h3 hdecorates
  exact h4

theorem SessionM.load_eq_ok {name : String} {text : String}
    (hok : SessionM.load name place s = .ok text s') : s.templates.load name = .ok text := by
  obtain ⟨_, s1, hdepend, hok⟩ := bind_eq_ok.mp hok
  cases hdepend
  rw [get_bind] at hok
  have htemplates : (s.depend name).templates = s.templates := (s.resumes_depend name).templates_eq
  rw [htemplates] at hok
  cases hload : s.templates.load name with
  | error fault => rw [hload] at hok; cases hok
  | ok content =>
    rw [hload] at hok
    obtain ⟨rfl, -⟩ := pure_eq_ok.mp hok
    rfl

theorem loadTemplate_traces (hS : ∀ name text, lib.load name = .ok text → S name text)
    (depth : Nat) : (loadTemplate depth).Traces lib S V := by
  induction depth with
  | zero => exact ⟨fun _ hok => by cases hok⟩
  | succ depth ih =>
    refine ⟨fun {name place s s' d} hlib hok => ?_⟩
    have hresumes : s.Resumes s' := (loadTemplate_resumes (depth + 1) name place s).ok d s' hok
    refine ⟨?_, hresumes.templates_eq.trans hlib⟩
    obtain ⟨source, s1, hload, hok⟩ := bind_eq_ok.mp hok
    have hsource := SessionM.load_eq_ok hload
    have hresumes1 : s.Resumes s1 := (SessionM.load_resumes name place s).ok source s1 hload
    obtain ⟨s2, hok⟩ := reading_eq_ok hok
    exact assemble_sourced (s := s1.enter name) (loadTemplate_resumes depth) ih
      (hS name source (hlib ▸ hsource)) (hresumes1.templates_eq.trans hlib) (onSource_eq_ok hok)

end

end Stencil
