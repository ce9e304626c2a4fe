import Stencil.Proofs.Blocks.Sparing
import Stencil.Proofs.Template.Sparing

/-!
# The layers of a template

A template that has been read has three layers. The root and the blocks hold tags, variables, text and
other blocks in their branches. What these hold, and what belongs to the markers of a block, is no block
and holds none. All blocks are closed, and raw output has no markers between its two tags.
-/

namespace Stencil

open Document List

variable {g : Body → Body} {i : Nat} {key : String}

namespace Template

variable {d d' : Document} {b : Branch} {c id x y z : NodeId} {opened opened' loose L : List NodeId}
  {f : Node → Node} {path s : String} {levels : Nat}

/-- The kinds of what is inside of tags, variables and comments. -/
def innerKinds : List Kind := [.tagElement, .variablePart, .comment]

def markerKinds : List Kind := nesting.eligible ++ innerKinds

/-- Blocks, what they hold, and what this holds. The blocks in `opened` are not closed yet. -/
structure Layered (opened : List NodeId) (d : Document) : Prop where
  hasKinds : d.HasKinds Kind.ofTemplates
  bare : ∀ x, d.kind x ∉ blockKinds → (d.node x).payload = .none
  inner : ∀ x, d.kind x ∉ Kind.holders → ∀ c ∈ d.kids x, d.kind c ∈ innerKinds
  body : ∀ x, ∀ c ∈ (d.node x).body.references, d.kind c ∈ markerKinds
  closed : ∀ x, d.kind x ∈ blockKinds → x ∉ opened →
    ∃ c, (d.node x).body.closing = some c ∧ d.kind c ∈ nesting.eligible
  unmarked : ∀ x, d.kind x = .rawOutput → (d.node x).body.markers = []

namespace Layered

theorem of_alike (h : Layered opened d) (ha : d.Alike d') : Layered opened d' where
  hasKinds x := ha.kind_eq x ▸ h.hasKinds x
  bare x hx := (ha.node x).payload_eq.trans (h.bare x (ha.kind_eq x ▸ hx))
  inner x hx c hc := by
    rw [ha.kind_eq]
    exact h.inner x (ha.kind_eq x ▸ hx) c (ha.kids_eq x ▸ hc)
  body x c hc := by
    rw [ha.kind_eq]
    exact h.body x c ((ha.node x).body_eq ▸ hc)
  closed x hx ho := by
    obtain ⟨c, hc, hkind⟩ := h.closed x (ha.kind_eq x ▸ hx) ho
    exact ⟨c, (congrArg Body.closing (ha.node x).body_eq).trans hc, ha.kind_eq c ▸ hkind⟩
  unmarked x hx := by
    rw [(ha.node x).body_eq]
    exact h.unmarked x (ha.kind_eq x ▸ hx)

theorem modify (h : Layered opened d) (hlt : id < d.size)
    (hkind : (f (d.node id)).kind = d.kind id ∨ ∀ y, id ∉ d.refs y)
    (hblock : (f (d.node id)).kind ∈ blockKinds)
    (hbody : ∀ c ∈ (f (d.node id)).body.references, d.kind c ∈ markerKinds ∧
      ((f (d.node id)).kind = d.kind id ∨ c ≠ id)) (hopened : ∀ x ≠ id, x ∉ opened' → x ∉ opened)
    (hclosed : id ∉ opened' →
      ∃ c, (f (d.node id)).body.closing = some c ∧ d.kind c ∈ nesting.eligible)
    (hunmarked : (f (d.node id)).kind = .rawOutput → (f (d.node id)).body.markers = []) :
    Layered opened' (d.modify id f) := by
  have hself : (d.modify id f).node id = f (d.node id) := modify_self hlt
  have hothers : ∀ {x}, x ≠ id → (d.modify id f).node x = d.node x := fun hx => modify_ne hx
  -- what other nodes refer to keeps its kind
  have hkept : ∀ {x c}, c ∈ d.refs x → (d.modify id f).kind c = d.kind c := fun {x c} hc => by
    by_cases hcid : c = id
    · subst hcid
      rw [kind, hself]
      exact hkind.resolve_right fun hn => hn x hc
    · exact kind_congr (hothers hcid)
  have hown : ∀ {c}, c ∈ (f (d.node id)).body.references →
      (d.modify id f).kind c = d.kind c := fun {c} hc => by
    by_cases hcid : c = id
    · subst hcid
      rw [kind, hself]
      exact (hbody c hc).2.resolve_right fun hne => hne rfl
    · exact kind_congr (hothers hcid)
  have hholder : ∀ k ∈ blockKinds, k ∈ Kind.holders ∧ k ∈ Kind.ofTemplates := by decide
  refine ⟨h.hasKinds.modify (hholder _ hblock).2, fun x hx => ?_, fun x hx c hc => ?_,
    fun x c hc => ?_, fun x hx ho => ?_, fun x hx => ?_⟩ <;> by_cases hxid : x = id
  · subst hxid
    rw [kind, hself] at hx
    exact absurd hblock hx
  · rw [hothers hxid]
    exact h.bare x (kind_congr (hothers hxid) ▸ hx)
  · subst hxid
    rw [kind, hself] at hx
    exact absurd (hholder _ hblock).1 hx
  · rw [kids_congr (hothers hxid)] at hc
    rw [hkept (d.kids_sub x hc)]
    exact h.inner x (kind_congr (hothers hxid) ▸ hx) c hc
  · subst hxid
    rw [hself] at hc
    rw [hown hc]
    exact (hbody c hc).1
  · rw [hothers hxid] at hc
    rw [hkept ((d.node x).body_refs_sub hc)]
    exact h.body x c hc
  · subst hxid
    obtain ⟨c, hc, hkind⟩ := hclosed ho
    rw [hself]
    exact ⟨c, hc, hown (Body.mem_references.mpr (.inr (.inr hc))) ▸ hkind⟩
  · obtain ⟨c, hc, hkind⟩ := h.closed x (kind_congr (hothers hxid) ▸ hx) (hopened x hxid ho)
    have href : c ∈ d.refs x :=
      (d.node x).body_refs_sub (Body.mem_references.mpr (.inr (.inr hc)))
    rw [hothers hxid]
    exact ⟨c, hc, hkept href ▸ hkind⟩
  · subst hxid
    rw [hself]
    exact hunmarked (by rw [kind, hself] at hx; exact hx)
  · rw [hothers hxid]
    exact h.unmarked x (kind_congr (hothers hxid) ▸ hx)

theorem setBranch (h : Layered opened d) (hid : d.kind id ∈ Kind.holders) :
    Layered opened (d.setBranch id i b) := by
  have hkind : ∀ x, (d.setBranch id i b).kind x = d.kind x := fun x =>
    modify_of_eq Node.kind rfl
  have hpayload : ∀ x, ((d.setBranch id i b).node x).payload = (d.node x).payload := fun x =>
    modify_of_eq Node.payload rfl
  have hbody : ∀ x, ((d.setBranch id i b).node x).body = (d.node x).body := fun x =>
    modify_of_eq Node.body rfl
  refine ⟨fun x => hkind x ▸ h.hasKinds x, fun x hx => ?_, fun x hx c hc => ?_, fun x c hc => ?_,
    fun x hx ho => ?_, fun x hx => ?_⟩
  · exact (hpayload x).trans (h.bare x (hkind x ▸ hx))
  · rw [hkind] at hx ⊢
    have hne : x ≠ id := fun heq => hx (heq ▸ hid)
    exact h.inner x hx c (kids_congr (modify_ne hne) ▸ hc)
  · rw [hkind]
    exact h.body x c (hbody x ▸ hc)
  · obtain ⟨c, hc, heligible⟩ := h.closed x (hkind x ▸ hx) ho
    exact ⟨c, (congrArg Body.closing (hbody x)).trans hc, hkind c ▸ heligible⟩
  · rw [hbody]
    exact h.unmarked x (hkind x ▸ hx)

theorem mem_kids_of_bare (hx : (d.node x).payload = .none) (hc : c ∈ d.refs x) : c ∈ d.kids x := by
  have hbody : (d.node x).body.references = [] := by
    rw [Node.body, Node.body?, hx]
    rfl
  have hmem := (d.node x).references_perm.mem_iff.mp hc
  rwa [hbody, nil_append] at hmem

theorem kind_of_body (h : Layered opened d) (hc : c ∈ (d.node y).body.references)
    (hr : Reaches d.refs c z) : d.kind z ∈ markerKinds := by
  have hfree : ∀ k ∈ markerKinds, k ∉ Kind.holders ∧ k ∉ blockKinds := by decide
  induction hr with
  | refl => exact h.body y c hc
  | @tail p z _ hz ih =>
    obtain ⟨hholder, hblock⟩ := hfree _ ih
    exact mem_append_right _ (h.inner p hholder z (mem_kids_of_bare (h.bare p hblock) hz))

end Layered

structure Pending (d : Document) (o : OpenBlock String) : Prop where
  block : d.kind o.node ∈ blockKinds
  raw : d.kind o.node = .rawOutput → o.separators = []

theorem Pending.of_kind_eq {o : OpenBlock String} (h : Pending d o)
    (hk : d'.kind o.node = d.kind o.node) : Pending d' o :=
  ⟨hk ▸ h.block, hk ▸ h.raw⟩

def openNodes (p : Nesting.Progress String) : List NodeId := p.blocks.map (·.node)

/-- Blocks that are open, and the layers so far. -/
structure Building (d : Document) (p : Nesting.Progress String) : Prop where
  layered : Layered (openNodes p) d
  pending : ∀ o ∈ p.blocks, Pending d o

namespace Building

variable {p p' : Nesting.Progress String}

theorem put (h : Building d p) (f : Fragment) : Building d (p.put f) := by
  obtain ⟨hlayered, hpending⟩ := h
  cases hblocks : p.blocks with
  | nil =>
    have hput : (p.put f).blocks = p.blocks := by rw [Nesting.Progress.put, hblocks]
    rw [openNodes, ← hput] at hlayered
    rw [← hput] at hpending
    exact ⟨hlayered, hpending⟩
  | cons o outer =>
    rw [Nesting.Progress.put, hblocks]
    rw [openNodes, hblocks] at hlayered
    rw [hblocks, forall_mem_cons] at hpending
    exact ⟨hlayered, forall_mem_cons.mpr ⟨⟨hpending.1.block, hpending.1.raw⟩, hpending.2⟩⟩

theorem keep (h : Building d p) (hid : d.kind id ∉ Kind.holders)
    (hok : nesting.nestNode levels id d = .ok () d') : Building d' p := by
  have hfree : ∀ k ∈ innerKinds, k ∉ Kind.holders ∧ k ∉ nesting.eligible := by decide
  have hmarkerless : nesting.Markerless d fun y => d.kind y ∈ innerKinds :=
    ⟨fun x c hx hc => h.layered.inner x (hfree _ hx).1 c hc, fun x hx => (hfree _ hx).2⟩
  have ha := Nesting.alike_nestNode levels hmarkerless (h.layered.inner id hid) hok
  exact ⟨h.layered.of_alike ha, fun o ho => (h.pending o ho).of_kind_eq (ha.kind_eq _)⟩

theorem enter {rule : BlockRule String} (h : Building d p)
    (hid : ∀ y, id ∉ d.refs y) (hkey : nesting.key? d id = some key)
    (hrule : nesting.table.get? key = some rule) (hok : Nesting.enter p id rule d = .ok p' d') :
    Building d' p' := by
  obtain ⟨rfl, rfl⟩ := Nesting.enter_eq_ok hok
  have heligible := Nesting.kind_eligible hkey
  have hfree : ∀ k ∈ nesting.eligible, k ≠ .root ∧ k ∉ blockKinds ∧ k ∉ Kind.holders := by decide
  obtain ⟨hroot, hblock, hholder⟩ := hfree _ heligible
  have hlt := lt_of_kind_ne hroot
  have hrules : ∀ r ∈ blockTags.rules, r.2.kind = .rawOutput → r.2.separators = [] := by decide
  have hmem := mem_of_lookup hrule
  have hbody : ((d.node id).asBlock rule.kind).body = { opening := (d.node id).branch 0 } := by
    show { (d.node id).body with opening := (d.node id).branch 0 } = _
    rw [Node.body, Node.body?, h.layered.bare id hblock]
    rfl
  refine ⟨h.layered.modify hlt (.inr hid) (mem_map.mpr ⟨_, hmem, rfl⟩) (fun c hc => ?_)
    (fun x hx ho => fun hmem => ho (mem_cons_of_mem _ hmem))
    (fun ho => absurd mem_cons_self ho) fun _ => by rw [hbody], ?_⟩
  · -- the opening of a block is what the marker held
    rw [hbody] at hc
    have hc : c ∈ ((d.node id).branch 0).nodes := by simpa [Body.references] using hc
    have hkid : c ∈ d.kids id :=
      mem_kids.mpr ⟨_, branch_mem (lt_of_mem_branch hc), hc⟩
    exact ⟨mem_append_right _ (h.layered.inner id hholder c hkid),
      .inr fun heq => hid id (heq ▸ d.kids_sub id hkid)⟩
  · have hself : (d.modify id (Node.asBlock rule.kind)).kind id = rule.kind := by
      rw [kind, modify_self hlt]
      rfl
    refine forall_mem_cons.mpr ⟨⟨?_, fun hraw => ?_⟩, fun o ho => ?_⟩
    · rw [hself]
      exact mem_map.mpr ⟨_, hmem, rfl⟩
    · rw [hself] at hraw
      exact hrules _ hmem hraw
    · have ho := h.pending o ho
      exact ho.of_kind_eq (kind_congr (modify_ne fun heq => hblock (heq ▸ ho.block)))

theorem absorb {o : OpenBlock String} {outer : List (OpenBlock String)}
    (h : Building d p) (hblocks : p.blocks = o :: outer) (hid : d.kind id ∈ nesting.eligible)
    (hg : ∀ c ∈ (g (d.node o.node).body).references, c ∈ (d.node o.node).body.references ∨ c = id)
    (hopened : ∀ x ≠ o.node, x ∉ opened' → x ∉ outer.map (·.node))
    (hclosed : o.node ∉ opened' →
      ∃ c, (g (d.node o.node).body).closing = some c ∧ d.kind c ∈ nesting.eligible)
    (hunmarked : d.kind o.node = .rawOutput → (g (d.node o.node).body).markers = []) :
    Layered opened' (d.modify o.node (Node.absorb o.branch o.content g)) := by
  have hpending := h.pending o (hblocks ▸ mem_cons_self)
  have hlt : o.node < d.size := by
    refine lt_of_kind_ne fun hroot => ?_
    have hblock := hpending.block
    rw [hroot] at hblock
    exact absurd hblock (by decide)
  have hkind : ((d.node o.node).absorb o.branch o.content g).kind = d.kind o.node :=
    Node.kind_fill _ _ _
  refine h.layered.modify hlt (.inl hkind) (hkind ▸ hpending.block) (fun c hc => ⟨?_, .inl hkind⟩)
    (fun x hx ho => ?_) hclosed fun hraw => hunmarked (hkind ▸ hraw)
  · rcases hg c hc with hc | rfl
    · exact h.layered.body _ c hc
    · exact mem_append_left _ hid
  · rw [openNodes, hblocks, map_cons]
    exact not_mem_cons_of_ne_of_not_mem hx (hopened x hx ho)

theorem kind_absorb {o : OpenBlock String} (x : NodeId) :
    (d.modify o.node (Node.absorb o.branch o.content g)).kind x = d.kind x :=
  modify_of_eq Node.kind (Node.kind_fill _ _ _)

theorem close {o : OpenBlock String} {outer : List (OpenBlock String)} (h : Building d p)
    (hblocks : p.blocks = o :: outer) (hid : d.kind id ∈ nesting.eligible)
    (hok : Nesting.close p o outer id d = .ok p' d') : Building d' p' := by
  obtain ⟨rfl, rfl⟩ := Nesting.close_eq_ok hok
  have hpending := h.pending
  rw [hblocks, forall_mem_cons] at hpending
  refine put (p := { p with blocks := outer }) ⟨h.absorb hblocks hid (fun c hc => ?_)
    (fun x _ ho => ho) (fun _ => ⟨id, rfl, hid⟩) fun hraw => h.layered.unmarked _ hraw,
    fun o ho => (hpending.2 o ho).of_kind_eq (kind_absorb _)⟩ _
  rcases Body.mem_references.mp hc with hc | hc | hc
  · exact .inl (Body.mem_references.mpr (.inl hc))
  · exact .inl (Body.mem_references.mpr (.inr (.inl hc)))
  · exact .inr (Option.some.inj hc).symm

theorem separate {o next : OpenBlock String} {outer : List (OpenBlock String)}
    (h : Building d p) (hblocks : p.blocks = o :: outer) (hid : d.kind id ∈ nesting.eligible)
    (hstep : o.step key = .separates next)
    (hok : Nesting.separate p o next outer id d = .ok p' d') : Building d' p' := by
  obtain ⟨rfl, rfl⟩ := Nesting.separate_eq_ok hok
  obtain ⟨hnode, -, hseparators⟩ := Nesting.step_separates hstep
  have hpending := h.pending
  rw [hblocks, forall_mem_cons] at hpending
  -- raw output waits for no separator
  have hraw : d.kind o.node ≠ .rawOutput := fun hraw => hseparators (hpending.1.raw hraw)
  have hopened : o.node ∈ openNodes { p with blocks := next :: outer } := by
    rw [← hnode]
    exact mem_cons_self
  refine ⟨h.absorb hblocks hid (fun c hc => ?_) (fun x _ ho => ?_) (fun ho => absurd hopened ho)
    fun hk => absurd hk hraw, forall_mem_cons.mpr ⟨⟨?_, ?_⟩,
      fun o ho => (hpending.2 o ho).of_kind_eq (kind_absorb _)⟩⟩
  · rcases Body.mem_references.mp hc with hc | hc | hc
    · exact .inl (Body.mem_references.mpr (.inl hc))
    · rw [Body.mark, map_append] at hc
      rcases mem_append.mp hc with hc | hc
      · exact .inl (Body.mem_references.mpr (.inr (.inl hc)))
      · exact .inr (mem_singleton.mp hc)
    · exact .inl (Body.mem_references.mpr (.inr (.inr hc)))
  · exact fun hmem => ho (mem_cons_of_mem _ hmem)
  · rw [kind_absorb, hnode]
    exact hpending.1.block
  · rw [kind_absorb, hnode]
    exact fun hk => absurd hk hraw

theorem take (h : Building d p) (hheld : Nesting.Held d p loose (id :: L))
    (hid : d.kind id ∉ Kind.holders)
    (hok : nesting.take (nesting.nestNode levels) p id d = .ok p' d') : Building d' p' := by
  rcases Nesting.take_cases hok with ⟨hnested, rfl⟩ | ⟨key, rule, hkey, hrule, hok⟩ |
    ⟨key, o, outer, hkey, hblocks, ⟨-, hok⟩ | ⟨next, hstep, hok⟩⟩
  · exact (h.keep hid hnested).put _
  · exact h.enter (fun _ => hheld.grove_cons.not_mem_refs mem_cons_self) hkey hrule hok
  · exact h.close hblocks (Nesting.kind_eligible hkey) hok
  · exact h.separate hblocks (Nesting.kind_eligible hkey) hstep hok

theorem foldlM (h : Building d p) (hheld : Nesting.Held d p loose (b.nodes ++ L))
    (hb : ∀ c ∈ b.nodes, d.kind c ∉ Kind.holders)
    (hok : b.foldlM (nesting.takeFragment (nesting.nestNode levels)) p d = .ok p' d') :
    Building d' p' := by
  refine (Nesting.foldlM_induction (P := fun b p d => Building d p ∧
    (∃ loose, Nesting.Held d p loose (b.nodes ++ L)) ∧ ∀ c ∈ b.nodes, d.kind c ∉ Kind.holders)
    (fun ⟨h, ⟨loose, hheld⟩, hb⟩ => ⟨h.put _, ⟨loose, hheld.put_text _⟩, hb⟩)
    (fun ⟨h, ⟨loose, hheld⟩, hb⟩ hstep => ?_) ⟨h, ⟨loose, hheld⟩, hb⟩ hok).1
  rw [Branch.nodes_cons_node] at hb
  rw [Branch.nodes_cons_node, cons_append] at hheld
  obtain ⟨hid, hb⟩ := forall_mem_cons.mp hb
  obtain ⟨hheld1, hframe⟩ := hheld.take (Nesting.nestNode_tends levels) hstep
  refine ⟨h.take hheld hid hstep, hheld1, fun c hc => ?_⟩
  rw [kind_congr (hframe.node_eq c (mem_append_left _ hc) c .refl)]
  exact hb c hc

end Building

theorem layered_of_tokens (h : Tokens d) (hs : Specialized d d') : Layered [] d' := by
  have hpayload : ∀ x, (d'.node x).payload = .none := fun x => by
    rw [hs.node_eq]
    exact h.payload_eq x
  -- a kind is that of the root, of a token or of a tag that stands alone
  have hkinds : ∀ x, d'.kind x ∈ Kind.root :: (layout.made ++ inlineTags.map Prod.snd) := fun x => by
    by_cases htag : d.kind x = .tag
    · rcases mem_cons.mp (hs.kind_mem x htag) with hk | hk
      · rw [hk]
        decide
      · exact mem_cons_of_mem _ (mem_append_right _ hk)
    · rw [hs.kind_eq x htag]
      by_cases hx : 1 ≤ x ∧ x < d.size
      · exact mem_cons_of_mem _ (mem_append_left _ (h.formed x hx.1 hx.2).kind_mem)
      · rw [h.kind_of_not_token hx]
        exact mem_cons_self
  have hall : ∀ k ∈ Kind.root :: (layout.made ++ inlineTags.map Prod.snd),
      k ∈ Kind.ofTemplates ∧ k ∉ blockKinds ∧ k ≠ .rawOutput := by decide
  refine ⟨fun x => (hall _ (hkinds x)).1, fun x _ => hpayload x, fun x hx c hc => ?_,
    fun x c hc => ?_, fun x hx => absurd hx (hall _ (hkinds x)).2.1,
    fun x hx => absurd hx (hall _ (hkinds x)).2.2⟩
  · have htoken : 1 ≤ x ∧ x < d.size := by
      by_contra hn
      have hroot := h.kind_of_not_token hn
      rw [hs.kind_eq x (by rw [hroot]; decide), hroot] at hx
      exact hx (by decide)
    have hinside : ∀ k ∈ layout.made, ∀ k' ∈ layout.inside k, k' ∈ innerKinds ∧ k' ≠ .tag := by decide
    have hformed := h.formed x htoken.1 htoken.2
    obtain ⟨b, hb, hfills⟩ := hformed.branches_eq
    have hkids : d'.kids x = d.kids x := by
      rw [kids, branches, hs.node_eq]
      rfl
    rw [hkids] at hc
    obtain ⟨b', hb', hcb⟩ := mem_kids.mp hc
    rw [hb, mem_singleton] at hb'
    obtain ⟨hinner, htag⟩ := hinside _ hformed.kind_mem _ (hfills.nodes c (hb' ▸ hcb))
    rwa [hs.kind_eq c htag]
  · rw [Node.body, Node.body?, hpayload] at hc
    cases hc

theorem Layered.nestBranch {b' : Branch} (h : Layered [] d) (hg : d.Grove (root :: L))
    (hroot : d.kind root = .root) (hb : ∀ c ∈ (d.branch root i).nodes, d.kind c ∉ Kind.holders)
    (hok : nesting.nestBranch (nesting.nestNode levels) (d.branch root i) (d.setBranch root i []) =
      .ok b' d') : Layered [] (d'.setBranch root i b') := by
  obtain ⟨p, hfold, hblocks, -⟩ := Nesting.nestBranch_eq_ok hok
  have hholder : ∀ {e : Document}, e.kind root = .root → e.kind root ∈ Kind.holders := fun h => by
    rw [h]
    decide
  have hkind : ∀ x, (d.setBranch root i []).kind x = d.kind x := fun x =>
    modify_of_eq Node.kind rfl
  have hstart : Building (d.setBranch root i []) {} :=
    ⟨h.setBranch (hholder hroot), fun o ho => absurd ho not_mem_nil⟩
  have hheld : Nesting.Held (d.setBranch root i []) ({} : Nesting.Progress String) []
      ((d.branch root i).nodes ++ (root :: L)) := ⟨.nil, (hg.takeBranch i).1⟩
  have hlast := (hstart.foldlM hheld (fun c hc => hkind c ▸ hb c hc) hfold).layered
  rw [openNodes, hblocks] at hlast
  refine hlast.setBranch (hholder ?_)
  have hframe := (hheld.foldlM (Nesting.nestNode_tends levels) hfold).frame
  rw [kind_congr hframe.node_head, hkind, hroot]

theorem parse_layered (h : parse (.ofSource path s) = .ok () d) : Layered [] d := by
  obtain ⟨_, d1, htok, h⟩ := bind_eq_ok.mp h
  obtain ⟨_, d2, hspecial, hnest⟩ := bind_eq_ok.mp h
  cases hspecial
  rw [Nesting.nest, get_bind] at hnest
  have htokens := tokens_of_tokenize htok
  have hs := specialized_specialize d1
  have hg1 : d1.Grove [root] := (Grammar.tokenize_tended (grove_ofSource path s) .refl htok).1.grove
  have hg := ((specialize_thinned d1).sustained hg1).grove
  have hroot : (specialize d1).kind root = .root := by
    rw [hs.kind_eq root (by rw [htokens.root_kind]; decide), htokens.root_kind]
  have hlen : ((specialize d1).branches root).length = 1 := by
    rw [branches, hs.node_eq]
    exact congrArg List.length htokens.root_branches
  -- the tokens stand in the single branch of the root
  have houtside : ∀ c ∈ ((specialize d1).branch root 0).nodes,
      (specialize d1).kind c ∉ Kind.holders := fun c hc => by
    have hfree : ∀ k ∈ layout.outside ++ inlineTags.map Prod.snd, k ∉ Kind.holders := by decide
    rw [branch, hs.node_eq] at hc
    by_cases htag : d1.kind c = .tag
    · rcases mem_cons.mp (hs.kind_mem c htag) with hk | hk
      · exact hfree _ (hk ▸ by decide)
      · exact hfree _ (mem_append_right _ hk)
    · exact hfree _ (hs.kind_eq c htag ▸ mem_append_left _ (htokens.outside c hc))
  obtain ⟨levels, hsize⟩ : ∃ levels, (specialize d1).size = levels + 1 :=
    Nat.exists_eq_succ_of_ne_zero (ne_of_gt hg.lt_head)
  rw [hsize] at hnest
  have hresult := mapBranches_ind
    (P := fun k e => (k = 0 → e = specialize d1) ∧ (k ≠ 0 → Layered [] e)) hnest
    ⟨fun _ => rfl, fun hn => absurd rfl hn⟩ ?_
  · exact hresult.2 (by rw [hlen]; decide)
  · rintro i hi e b e' ⟨hzero, -⟩ hok
    rw [hlen] at hi
    obtain rfl := Nat.lt_one_iff.mp hi
    obtain rfl := hzero rfl
    exact ⟨fun hn => absurd hn (Nat.succ_ne_zero _), fun _ =>
      (layered_of_tokens htokens hs).nestBranch hg hroot houtside hok⟩

theorem parse_composed (h : parse (.ofSource path s) = .ok () d) : Composed d :=
  ⟨parse_sourced trivial h, (parse_layered h).hasKinds⟩

end Template

end Stencil
