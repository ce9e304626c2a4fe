import Stencil.Proofs.Doc.Likeness
import Stencil.Proofs.Template.Keeping

/-!
# What takes the place of a block

A block of the parent is given a copy of the content of a block of the child. Before that, each variable
in the copy that is called `block.super` is filled with a copy of what the block of the parent holds
(`FilledIn`).
-/

namespace Stencil

open Document List

variable {V l : List NodeId} {c replacement source target : NodeId} {k : Nat} {φ : NodeId → NodeId}

namespace Template

open Document

variable {d e child base : Document} {L M : List NodeId} {P : List NodeId} {name : String}
  {content : Branch} {id v x y : NodeId}

theorem texts_congr {kind : Kind} (hkind : ∀ c ∈ l, e.kind c = kind ↔ d.kind c = kind)
    (hnode : ∀ c ∈ l, d.kind c = kind → e.node c = d.node c) :
    (l.filter (e.kind · == kind)).map e.ownText = (l.filter (d.kind · == kind)).map d.ownText := by
  have hparts : l.filter (e.kind · == kind) = l.filter (d.kind · == kind) :=
    filter_congr fun c hc => by
      rw [Bool.eq_iff_iff, beq_iff_eq, beq_iff_eq]
      exact hkind c hc
  rw [hparts]
  refine map_congr_left fun c hc => ?_
  obtain ⟨hc, hk⟩ := mem_filter.mp hc
  rw [ownText, children, hnode c hc (beq_iff_eq.mp hk)]
  rfl

theorem variableName_congr (hv : e.node v = d.node v)
    (hkind : ∀ c ∈ d.childNodes v, e.kind c = .variablePart ↔ d.kind c = .variablePart)
    (hpart : ∀ c ∈ d.childNodes v, d.kind c = .variablePart → e.node c = d.node c) :
    variableName e v = variableName d v := by
  have hchildren : e.childNodes v = d.childNodes v := by rw [childNodes, children, hv]; rfl
  rw [variableName, hchildren, texts_congr hkind hpart]
  rfl

theorem tagBranch_subset_refs : (tagBranch d x).nodes ⊆ d.refs x := by
  intro c hc
  rw [tagBranch] at hc
  split at hc
  · next b hb =>
    refine Node.mem_references.mpr (.inl ?_)
    rwa [Node.body, hb]
  · exact refs_of_children hc

theorem argument?_congr (hx : e.node x = d.node x)
    (hkind : ∀ c ∈ d.refs x, e.kind c = .tagElement ↔ d.kind c = .tagElement)
    (helement : ∀ c ∈ d.refs x, d.kind c = .tagElement → e.node c = d.node c) (i : Nat) :
    argument? e x i = argument? d x i := by
  have hbranch : tagBranch e x = tagBranch d x := by rw [tagBranch, children, hx]; rfl
  rw [argument?, elements, elementNodes, hbranch,
    texts_congr (fun c hc => hkind c (tagBranch_subset_refs hc))
      fun c hc => helement c (tagBranch_subset_refs hc)]
  rfl

/-- The variables of a list that have a given name hold copies of some content, and nothing else has
changed. -/
structure FilledIn (d : Document) (V : List NodeId) (name : String) (content : Branch) (e : Document) :
    Prop where
  size_le : d.size ≤ e.size
  kept : ∀ y < d.size, ¬ (y ∈ V ∧ variableName d y = name) → e.node y = d.node y
  filled : ∀ v ∈ V, variableName d v = name → ∃ ψ,
    e.node v = { d.node v with kind := .expanded, branches := [content.renumber ψ] } ∧
      d.Copied content.nodes ψ d.size e

theorem FilledIn.refl (d : Document) (name : String) (content : Branch) : FilledIn d [] name content d where
  size_le := le_refl _
  kept _ _ _ := rfl
  filled _ hv := absurd hv not_mem_nil

/-- The document with a copy of some content in a node, which becomes expanded. -/
def fillNode (content : Branch) (d : Document) (v : NodeId) : Document :=
  ((d.duplicateBranch content).2.setKind v .expanded).setChildren v (d.duplicateBranch content).1

def fillOne (name : String) (content : Branch) (d : Document) (v : NodeId) : Document :=
  if variableName d v == name then fillNode content d v else d

theorem fillVariable_eq (id : NodeId) (name : String) (content : Branch) (d : Document) :
    fillVariable id name content d =
      (d.descendants id [.variableTag] [.rawOutput]).foldl (fillOne name content) d := rfl

theorem fillNode_spec (he : e.Grove L) (hc : ∀ c ∈ content.nodes, c < e.size)
    (ha : e.Antichain content.nodes) (hv : v < e.size) : e.size ≤ (fillNode content e v).size ∧
      (∀ y < e.size, y ≠ v → (fillNode content e v).node y = e.node y) ∧ ∃ ψ,
        (fillNode content e v).node v =
          { e.node v with kind := .expanded, branches := [content.renumber ψ] } ∧
        e.Copied content.nodes ψ e.size (fillNode content e v) := by
  obtain ⟨-, hgrown, -⟩ := he.duplicateBranch hc
  obtain ⟨ψ, hcopy, hcopied⟩ := he.copied_duplicateBranch hc ha
  rw [fillNode, hcopy]
  set e1 := (e.duplicateBranch content).2
  have hsize : ((e1.setKind v .expanded).setChildren v (content.renumber ψ)).size = e1.size := by
    rw [setChildren, size_modify, setKind, size_modify]
  have hothers : ∀ y, y ≠ v → ((e1.setKind v .expanded).setChildren v (content.renumber ψ)).node y =
      e1.node y := fun y hy => by
    rw [setChildren, modify_ne hy, setKind, modify_ne hy]
  refine ⟨?_, fun y hy hne => ?_, ψ, ?_, hcopied.mono (le_of_eq hsize.symm) fun y hy _ => ?_⟩
  · rw [hsize]
    exact hgrown.size_le
  · rw [hothers y hne, hgrown.node_eq y hy]
  · have hv1 : v < e1.size := lt_of_lt_of_le hv hgrown.size_le
    rw [setChildren, modify_self (by rwa [setKind, size_modify]), setKind, modify_self hv1,
      hgrown.node_eq v hv]
  · exact hothers y (ne_of_gt (lt_of_lt_of_le hv hy))

section Fill

variable (hd : d.Grove L) (hc : ∀ c ∈ content.nodes, c < d.size) (ha : d.Antichain content.nodes)
  (hvar : ∀ v ∈ V, v < d.size ∧ d.kind v = .variableTag) (hapart : ∀ v ∈ V, ¬ d.LeadsTo content.nodes v)
include hd hvar

theorem FilledIn.variableName_eq (h : FilledIn d P name content e) (hP : P ⊆ V) (hv : v ∈ V) (hvP : v ∉ P) :
    variableName e v = variableName d v := by
  have hcases : ∀ c ∈ d.childNodes v, e.node c = d.node c ∨
      e.kind c = .expanded ∧ d.kind c = .variableTag := by
    intro c hc
    by_cases hfilled : c ∈ P ∧ variableName d c = name
    · obtain ⟨ψ, hψ, -⟩ := h.filled c hfilled.1 hfilled.2
      exact .inr ⟨by rw [kind, hψ], (hvar c (hP hfilled.1)).2⟩
    · exact .inl (h.kept c (lt_of_child hd _ c hc) hfilled)
  refine variableName_congr (h.kept v (hvar v hv).1 fun hmem => hvP hmem.1) (fun c hc => ?_)
    fun c hc hpart => ?_
  · rcases hcases c hc with heq | ⟨he, hd⟩
    · rw [kind, heq, kind]
    · rw [he, hd]
      decide
  · refine (hcases c hc).resolve_right fun hfilled => ?_
    rw [hfilled.2] at hpart
    cases hpart

include hc ha hapart

theorem FilledIn.step (h : FilledIn d P name content e) (he : e.Grove L) (hP : P ⊆ V) (hv : v ∈ V)
    (hvP : v ∉ P) : FilledIn d (P ++ [v]) name content (fillOne name content e v) := by
  have hlt := (hvar v hv).1
  have hkeep : ∀ y, ¬ (y ∈ P ++ [v] ∧ variableName d y = name) → ¬ (y ∈ P ∧ variableName d y = name) :=
    fun y hno hyes => hno ⟨mem_append_left _ hyes.1, hyes.2⟩
  rw [fillOne, h.variableName_eq hd hvar hP hv hvP]
  by_cases heq : variableName d v = name
  · rw [if_pos (by simpa using heq)]
    have hsame : ∀ z, d.LeadsTo content.nodes z → d.node z = e.node z := by
      rintro z ⟨a, hmem, hr⟩
      refine (h.kept z (hd.lt_of_reaches (hc a hmem) hr) fun hfilled => ?_).symm
      exact hapart z (hP hfilled.1) ⟨a, hmem, hr⟩
    have hold : ∀ {y}, y < d.size → y < e.size := fun hy => lt_of_lt_of_le hy h.size_le
    obtain ⟨hsize, hothers, ψ, hself, hcopied⟩ := fillNode_spec he (fun c hmem => hold (hc c hmem))
      (ha.of_eq hsame) (hold hlt)
    refine ⟨le_trans h.size_le hsize, fun y hy hno => ?_, fun w hw hwname => ?_⟩
    · rw [hothers y (hold hy) fun heqv => hno ⟨by simp [heqv], by rw [heqv, heq]⟩]
      exact h.kept y hy (hkeep y hno)
    · by_cases hwv : w = v
      · rw [hwv]
        refine ⟨ψ, ?_, (hcopied.of_eq hsame).weaken h.size_le⟩
        rw [hself, h.kept v hlt fun hmem => hvP hmem.1]
      · have hwP : w ∈ P := by simpa [hwv] using hw
        obtain ⟨χ, hχ, hcopied'⟩ := h.filled w hwP hwname
        refine ⟨χ, ?_, hcopied'.mono hsize fun y hy hy' => ?_⟩
        · rw [hothers w (hold (hvar w (hP hwP)).1) hwv, hχ]
        · exact hothers y hy' (ne_of_gt (lt_of_lt_of_le hlt hy))
  · rw [if_neg (by simpa using heq)]
    refine ⟨h.size_le, fun y hy hno => h.kept y hy (hkeep y hno), fun w hw hwname => ?_⟩
    rcases mem_append.mp hw with hw | hw
    · exact h.filled w hw hwname
    · rw [mem_singleton.mp hw] at hwname
      exact absurd hwname heq

theorem FilledIn.foldl (h : FilledIn d P name content e) (he : e.Grove L)
    (hV : P ++ l = V) (hn : V.Nodup) : FilledIn d V name content (l.foldl (fillOne name content) e) := by
  induction l generalizing P e with
  | nil =>
    rw [append_nil] at hV
    exact hV ▸ h
  | cons v l ih =>
    have hP : P ⊆ V := hV ▸ subset_append_left _ _
    have hv : v ∈ V := hV ▸ mem_append_right _ mem_cons_self
    have hvP : v ∉ P := fun hmem => by
      rw [← hV] at hn
      exact (nodup_append.mp hn).2.2 v hmem v mem_cons_self rfl
    refine ih (h.step hd hc ha hvar hapart he hP hv hvP) ?_ (by rw [append_assoc]; exact hV)
    have hlt : v < e.size := lt_of_lt_of_le (hvar v hv).1 h.size_le
    rw [fillOne]
    split_ifs
    · exact (fill_sustained he (fun c hmem => lt_of_lt_of_le (hc c hmem) h.size_le) hlt).grove
    · exact he

end Fill

theorem fillVariable_filledIn (hd : d.Grove L) (hc : ∀ c ∈ content.nodes, c < d.size)
    (ha : d.Antichain content.nodes)
    (hapart : ∀ v ∈ d.descendants id [.variableTag] [.rawOutput], ¬ d.LeadsTo content.nodes v) :
    FilledIn d (d.descendants id [.variableTag] [.rawOutput]) name content
      (fillVariable id name content d) := by
  rw [fillVariable_eq]
  refine (FilledIn.refl d name content).foldl hd hc ha (fun v hv => ?_) hapart hd (nil_append _) ?_
  · exact ⟨hd.lt_of_descendant hv, by simpa [hasKind] using (mem_filter.mp hv).2⟩
  · exact ((hd.pairwise_below _ _ id).filter _).imp fun {a b} hr (heq : a = b) => hr (heq ▸ .refl)

/-- A variable in a block of the child that stands for the content of the block that is overridden. -/
def IsSuper (child : Document) (replacement c : NodeId) : Prop :=
  c ∈ child.descendants replacement [.variableTag] [.rawOutput] ∧ variableName child c = "block.super"

/-- Block `x` of the parent has got the content of a block of the child: copies with the numbers of `φ`.
A variable `c` that stands for what the block held before is expanded to a copy of that, with the
numbers of `ψ c`. -/
structure Override (child base : Document) (replacement x : NodeId) (φ : NodeId → NodeId)
    (ψ : NodeId → NodeId → NodeId) (d : Document) : Prop where
  node_eq : d.node x = (base.node x).setBranch 0 ((child.branch replacement 0).renumber φ)
  fresh : ∀ c, child.LeadsTo (child.branch replacement 0).nodes c → base.size ≤ φ c ∧ φ c < d.size
  like : ∀ c, child.LeadsTo (child.branch replacement 0).nodes c → ¬ IsSuper child replacement c →
    (child.node c).Like φ (d.node (φ c))
  super : ∀ c, child.LeadsTo (child.branch replacement 0).nodes c → IsSuper child replacement c →
    (∃ n, (child.node c).Like φ n ∧ d.node (φ c) =
      { n with kind := .expanded, branches := [(base.children x).renumber (ψ c)] }) ∧
    base.Copied (base.children x).nodes (ψ c) base.size d

theorem variableName_copied {s : Document}
    (h : s.Copied [x] φ k d) (hc : s.LeadsTo [x] c) : variableName d (φ c) = variableName s c := by
  have hin : ∀ y ∈ s.childNodes c, s.LeadsTo [x] y := fun y hy => hc.tail (refs_of_children hy)
  rw [variableName, variableName, h.childNodes_eq hc, filter_map, map_map]
  congr 1
  have hparts : (s.childNodes c).filter ((fun y => d.kind y == .variablePart) ∘ φ) =
      (s.childNodes c).filter (s.kind · == .variablePart) :=
    filter_congr fun y hy => by rw [Function.comp, h.kind_eq (hin y hy)]
  rw [hparts]
  exact map_congr_left fun y hy => h.ownText_eq (hin y (mem_of_mem_filter hy))

theorem not_isSuper_self (hchild : child.Grove M) (x : NodeId) : ¬ IsSuper child x x := by
  intro h
  have hin := encloses_of_below (mem_of_mem_filter h.1)
  obtain ⟨c, hc, hr⟩ := Relation.TransGen.head'_iff.mp hin
  exact hchild.not_reaches_mem (child.kids_sub _ hc) (Reaches.mono child.kids_sub hr)

theorem isSuper_iff (h : child.Copied [x] φ k d)
    (hinj : ∀ a c, child.LeadsTo [x] a → child.LeadsTo [x] c → φ a = φ c → a = c)
    (hs : Shallow child.kids child.size x) (hd : Shallow d.kids d.size (φ x))
    (hc : child.LeadsTo [x] c) : φ c ∈ d.descendants (φ x) [.variableTag] [.rawOutput] ∧
      variableName d (φ c) = "block.super" ↔ IsSuper child x c := by
  rw [IsSuper, variableName_copied h hc, h.mem_descendants_iff hs hd]
  refine and_congr_left fun _ => ⟨?_, fun hmem => ⟨c, rfl, hmem⟩⟩
  rintro ⟨a, heq, ha⟩
  have hin : child.LeadsTo [x] a :=
    ⟨x, mem_cons_self, reaches_of_enc (encloses_of_below (mem_of_mem_filter ha))⟩
  rwa [hinj c a hc hin heq]

def handOver (d : Document) (source target : NodeId) : Document :=
  (d.setBranch source 0 []).setBranch target 0 (d.branch source 0)

theorem overrideBlock_eq (hfound : (argument? e x 1).bind (blockNamed? child) = some replacement) :
    overrideBlock child e x = handOver (fillVariable e.size "block.super"
      ((e.graft child replacement).2.children x) (e.graft child replacement).2) e.size x := by
  rw [overrideBlock, hfound]
  rfl

theorem node_handOver_ne (hs : y ≠ source) (ht : y ≠ target) :
    (handOver d source target).node y = d.node y := by
  rw [handOver, setBranch, modify_ne ht, setBranch, modify_ne hs]

theorem node_handOver_self (hne : target ≠ source) (ht : target < d.size) :
    (handOver d source target).node target = (d.node target).setBranch 0 (d.branch source 0) := by
  rw [handOver, setBranch, modify_self (by rwa [setBranch, size_modify]), setBranch, modify_ne hne]

theorem size_handOver (d : Document) (source target : NodeId) :
    (handOver d source target).size = d.size := by
  rw [handOver, setBranch, size_modify, setBranch, size_modify]

section One

variable (hchild : child.Grove M) (he : e.Grove L)
  (hrep : replacement < child.size) (hx : x < e.size)
include hchild he hrep hx

theorem lt_of_leadsTo_graft {z : NodeId}
    (hz : (e.graft child replacement).2.LeadsTo ((e.graft child replacement).2.children x).nodes z) :
    z < e.size := by
  obtain ⟨-, hgrown⟩ := he.graft hchild hrep
  obtain ⟨a, ha, hr⟩ := hz
  rw [children, hgrown.node_eq x hx] at ha
  induction hr with
  | refl => exact lt_of_child he _ _ ha
  | tail _ hc ih =>
    rw [refs, hgrown.node_eq _ ih] at hc
    exact he.lt_of_refs hc

omit hrep in
theorem override_of_filledIn {e1 f : Document}
    (hφ : φ replacement = e.size) (hcopied : child.Copied [replacement] φ e.size e1)
    (hinj : ∀ a c, child.LeadsTo [replacement] a → child.LeadsTo [replacement] c → φ a = φ c → a = c)
    (hgrown : e.Grown e1) (hV : ∀ v ∈ V, e.size ≤ v)
    (hsuper : ∀ c, child.LeadsTo [replacement] c →
      (φ c ∈ V ∧ variableName e1 (φ c) = "block.super" ↔ IsSuper child replacement c))
    (hfill : FilledIn e1 V "block.super" (e.children x) f) :
    e.size ≤ (handOver f e.size x).size ∧
      (∀ y < e.size, y ≠ x → (handOver f e.size x).node y = e.node y) ∧
      ∃ ψ, Override child e replacement x φ ψ (handOver f e.size x) := by
  have hself : child.LeadsTo [replacement] replacement := .of_mem mem_cons_self
  have hsize := size_handOver f e.size x
  have hle : e.size ≤ f.size := le_trans hgrown.size_le hfill.size_le
  have hold : ∀ y < e.size, f.node y = e.node y := fun y hy => by
    rw [hfill.kept y (lt_of_lt_of_le hy hgrown.size_le) fun h => not_lt.mpr (hV y h.1) hy,
      hgrown.node_eq y hy]
  have hbranch : f.branch e.size 0 = (child.branch replacement 0).renumber φ := by
    rw [← hφ, branch, hfill.kept _ (hcopied.lt_size _ hself) fun h => not_isSuper_self hchild _
      ((hsuper _ hself).mp h)]
    exact (hcopied.like _ hself).branch_eq 0
  -- what is in the block is below it, so its copy is not the copy of the block
  have hbelow : ∀ c, child.LeadsTo (child.branch replacement 0).nodes c →
      child.LeadsTo [replacement] c ∧ φ c ≠ e.size := by
    rintro c ⟨a, ha, hr⟩
    have hmem := refs_of_mem ha
    have hc : child.LeadsTo [replacement] c := ⟨replacement, mem_cons_self, .head hmem hr⟩
    refine ⟨hc, fun heq => ?_⟩
    rw [← hφ] at heq
    exact hchild.not_reaches_mem hmem (hinj c replacement hc hself heq ▸ hr)
  have hnode : ∀ c, child.LeadsTo (child.branch replacement 0).nodes c →
      (handOver f e.size x).node (φ c) = f.node (φ c) := fun c hc =>
    node_handOver_ne (hbelow c hc).2
      (ne_of_gt (lt_of_lt_of_le hx (hcopied.le c (hbelow c hc).1)))
  have hfilled : ∀ c, ∃ ψ, child.LeadsTo [replacement] c → IsSuper child replacement c →
      f.node (φ c) = { e1.node (φ c) with kind := .expanded, branches := [(e.children x).renumber ψ] } ∧
        e1.Copied (e.children x).nodes ψ e1.size f := by
    intro c
    by_cases h : child.LeadsTo [replacement] c ∧ IsSuper child replacement c
    · obtain ⟨hmem, hname⟩ := (hsuper c h.1).mpr h.2
      obtain ⟨ψ, hψ⟩ := hfill.filled _ hmem hname
      exact ⟨ψ, fun _ _ => hψ⟩
    · exact ⟨id, fun hc hs => absurd ⟨hc, hs⟩ h⟩
  obtain ⟨ψ, hψ⟩ := Classical.axiomOfChoice hfilled
  refine ⟨hsize ▸ hle, fun y hy hyx => ?_, ψ, ?_, fun c hc => ?_, fun c hc hns => ?_, fun c hc hs => ?_⟩
  · rw [node_handOver_ne (ne_of_lt hy) hyx, hold y hy]
  · rw [node_handOver_self (ne_of_lt hx) (lt_of_lt_of_le hx hle), hold x hx, hbranch]
  · obtain ⟨hc, -⟩ := hbelow c hc
    exact ⟨hcopied.le c hc, hsize ▸ lt_of_lt_of_le (hcopied.lt_size c hc) hfill.size_le⟩
  · have hin := (hbelow c hc).1
    rw [hnode c hc, hfill.kept _ (hcopied.lt_size c hin) fun h => hns ((hsuper c hin).mp h)]
    exact hcopied.like c hin
  · have hin := (hbelow c hc).1
    obtain ⟨hexpanded, hcopy⟩ := hψ c hin hs
    refine ⟨⟨e1.node (φ c), hcopied.like c hin, by rw [hnode c hc, hexpanded]⟩, ?_⟩
    have hcopy : e.Copied (e.children x).nodes (ψ c) e1.size f := hcopy.of_eq ?_
    · refine (hcopy.mono (le_of_eq hsize.symm) fun y hy _ => ?_).weaken hgrown.size_le
      have hlt : e.size < e1.size := hφ ▸ hcopied.lt_size _ hself
      exact node_handOver_ne (ne_of_gt (lt_of_lt_of_le hlt hy))
        (ne_of_gt (lt_trans hx (lt_of_lt_of_le hlt hy)))
    · rintro z ⟨a, ha, hr⟩
      exact (hgrown.node_eq z (he.lt_of_reaches (lt_of_child he _ _ ha) hr)).symm

theorem overrideBlock_spec (hfound : (argument? e x 1).bind (blockNamed? child) = some replacement) :
    e.size ≤ (overrideBlock child e x).size ∧
      (∀ y < e.size, y ≠ x → (overrideBlock child e x).node y = e.node y) ∧
      ∃ φ ψ, Override child e replacement x φ ψ (overrideBlock child e x) := by
  obtain ⟨φ, hφ, hcopied, hinj⟩ : ∃ φ, φ replacement = e.size ∧
      child.Copied [replacement] φ e.size (e.graft child replacement).2 ∧ _ := hchild.copied_reached hrep
  obtain ⟨hg, hgrown⟩ := he.graft hchild hrep
  have hcopy : φ replacement < (e.graft child replacement).2.size :=
    hφ ▸ hg.lt_head
  have hcontent : (e.graft child replacement).2.children x = e.children x := by
    rw [children, hgrown.node_eq x hx]
    rfl
  have hnew : ∀ v ∈ (e.graft child replacement).2.descendants e.size [.variableTag] [.rawOutput],
      e.size ≤ v := by
    intro v hv
    have hr := reaches_of_enc (encloses_of_below (mem_of_mem_filter hv))
    exact Above.le_of_reaches hgrown.refs_ge (le_refl _) hr
  have hfill : FilledIn _ _ "block.super" _ _ := fillVariable_filledIn hg
    (lt_of_child hg x) (hg.antichain_children x)
    fun v hv hin => not_lt.mpr (hnew v hv) (lt_of_leadsTo_graft hchild he hrep hx hin)
  have hsuper := fun c =>
    isSuper_iff (c := c) hcopied hinj (hchild.shallow_kids hrep) (hg.shallow_kids hcopy)
  rw [hφ] at hsuper
  rw [overrideBlock_eq hfound]
  rw [hcontent] at hfill ⊢
  obtain ⟨hsize, hkept, ψ, hover⟩ :=
    override_of_filledIn hchild he hx hφ hcopied hinj hgrown hnew hsuper hfill
  exact ⟨hsize, hkept, φ, ψ, hover⟩

end One

end Template

end Stencil
