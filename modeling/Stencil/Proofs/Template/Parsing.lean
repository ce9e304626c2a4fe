import Stencil.Proofs.Template.Keeping
import Stencil.Proofs.Template.Provenance
import Stencil.Proofs.Template.RoundTrip

/-!
# Templates are traced when they have been read

The tokens of a template have the places that counting gives, so the text of each is where its place
says (`Sourced.of_tokens`). Tags that open and close stand between tokens only, where there is no
text. So **nesting moves no text**: what becomes the content of a block is nodes only
(`Nesting.Ready.nest`), and all else is put back as it was.
-/

namespace Stencil

open Branch Document List

variable {d d' : Document} {L : List NodeId} {x : NodeId} {b' : Branch}
  {nested : NodeId → Edit Unit} {V : String → Prop}

namespace Nesting

variable {κ : Type} {n : Nesting κ} {S : Sources} {d'' : Document}
  {p p' : Progress κ} {b : Branch} {id : NodeId} {i : Nat} {loose : List NodeId}

/-! ### Markers and text -/

/-- A kind of nodes that hold nodes only, besides what belongs to markers, and are no markers. -/
structure IsBlock (n : Nesting κ) (k : Kind) : Prop where
  holder : k ∈ Kind.holders
  not_simple : k ∉ Kind.simple
  not_eligible : k ∉ n.eligible

def Unmixed (n : Nesting κ) (d : Document) (b : Branch) : Prop :=
  b.Wordless ∨ ∀ c ∈ b.nodes, d.kind c ∉ n.eligible

/-- A document in which markers and text stand apart. -/
structure Ready (n : Nesting κ) (S : Sources) (V : String → Prop) (d : Document) : Prop where
  traced : d.Traced S V
  unmixed : ∀ x i, n.Unmixed d (d.branch x i)
  single : ∀ x, d.kind x ∈ n.eligible → (d.branches x).length = 1

/-- Markers may have become blocks. All else has its kind, and everything its place. -/
structure Turned (n : Nesting κ) (d d' : Document) : Prop where
  size_eq : d'.size = d.size
  place_eq : ∀ x, d'.place x = d.place x
  kind_eq : ∀ x, d.kind x ∉ n.eligible → d'.kind x = d.kind x

namespace Turned

theorem refl (d : Document) : n.Turned d d := ⟨rfl, fun _ => rfl, fun _ _ => rfl⟩

theorem not_eligible (h : n.Turned d d') (hx : d.kind x ∉ n.eligible) : d'.kind x ∉ n.eligible :=
  h.kind_eq x hx ▸ hx

theorem trans (h : n.Turned d d') (h' : n.Turned d' d'') : n.Turned d d'' where
  size_eq := h'.size_eq.trans h.size_eq
  place_eq x := (h'.place_eq x).trans (h.place_eq x)
  kind_eq x hx := (h'.kind_eq x (h.not_eligible hx)).trans (h.kind_eq x hx)

theorem of_labelled (h : d.Labelled d') : n.Turned d d' :=
  ⟨h.size_eq, h.place_eq, fun x _ => h.kind_eq x⟩

theorem unmixed (h : n.Turned d d') (hb : n.Unmixed d b) : n.Unmixed d' b :=
  hb.imp_right fun hc c hmem => h.not_eligible (hc c hmem)

end Turned

namespace Ready

theorem modify {f : Node → Node} (h : n.Ready S V d) (ht : n.Turned d (d.modify id f))
    (hf : id < d.size → (f (d.node id)).Traced S V)
    (hb : id < d.size → ∀ i, n.Unmixed d ((f (d.node id)).branch i))
    (hs : id < d.size → (f (d.node id)).kind ∈ n.eligible → (f (d.node id)).branches.length = 1) :
    n.Ready S V (d.modify id f) where
  traced := h.traced.modify hf
  unmixed x i := by
    refine ht.unmixed ?_
    rw [branch]
    rcases node_modify_cases d id f x with heq | ⟨hlt, -, heq⟩ <;> rw [heq]
    · exact h.unmixed x i
    · exact hb hlt i
  single x hk := by
    rw [kind] at hk
    rw [branches]
    rcases node_modify_cases d id f x with heq | ⟨hlt, -, heq⟩ <;> rw [heq] at hk ⊢
    · exact h.single x hk
    · exact hs hlt hk

theorem setBranch (h : n.Ready S V d) (hi : d.kind id ∈ Kind.simple ++ n.eligible → i = 0)
    (hb : b.Suits S V (d.kind id) (d.place id)) (hu : n.Unmixed d b) :
    n.Ready S V (d.setBranch id i b) := by
  have hlt : d.kind id ∈ Kind.simple ++ n.eligible → i < (d.branches id).length := fun hk => by
    have hlen : (d.branches id).length = 1 := by
      rcases mem_append.mp hk with hk | hk
      · exact h.traced.length_branches hk
      · exact h.single id hk
    rw [hi hk, hlen]
    exact Nat.one_pos
  refine h.modify (.of_labelled .setBranch)
    (fun hx => (h.traced id hx).setBranch (fun hk => hlt (mem_append_left _ hk)) hb)
    (fun _ j => ?_) fun _ hk => ?_
  · rw [Node.branch_setBranch]
    split_ifs
    · exact hu
    · exact h.unmixed id j
  · have hk : d.kind id ∈ n.eligible := hk
    have hi := hlt (mem_append_right _ hk)
    have hlen := h.single id hk
    rw [branches] at hi hlen
    rw [Node.length_setBranch]
    omega

theorem asBlock {k : Kind} (h : n.Ready S V d) (hk : n.IsBlock k) (hid : d.kind id ∈ n.eligible) :
    n.Ready S V (d.modify id (Node.asBlock k)) ∧ n.Turned d (d.modify id (Node.asBlock k)) := by
  have hlen : (d.node id).branches.length = 1 := h.single id hid
  have hemp : ((d.node id).asBlock k).branches = [[]] := by
    obtain ⟨c, hc⟩ := length_eq_one_iff.mp hlen
    rw [Node.asBlock, Node.setBranch_zero, hc]
    rfl
  have hturned : n.Turned d (d.modify id (Node.asBlock k)) := by
    refine ⟨size_modify _ _ _, fun x => modify_of_eq Node.place rfl, fun x hx => ?_⟩
    rcases node_modify_cases d id (Node.asBlock k) x with heq | ⟨-, rfl, -⟩
    · rw [kind, heq]
      rfl
    · exact absurd hid hx
  refine ⟨h.modify hturned (fun hlt => ?_) (fun _ i => .inl ?_)
    fun _ hmem => absurd hmem hk.not_eligible, hturned⟩
  · refine ⟨(h.traced id hlt).file, rfl, fun hs => absurd hs hk.not_simple,
      fun hs => absurd hs hk.not_simple, fun b hb => ?_⟩
    rw [hemp, List.mem_singleton] at hb
    rw [hb]
    exact Branch.Wordless.nil.suits
  · have hnil : ((d.node id).asBlock k).branch i = [] := by
      rw [Node.branch, hemp]
      cases i <;> rfl
    rw [hnil]
    exact .nil

theorem absorb {k : Nat} {g : Body → Body} (h : n.Ready S V d) (hk : n.IsBlock (d.kind id))
    (hb : b.Wordless) : n.Ready S V (d.modify id (Node.absorb k b g)) ∧
      n.Turned d (d.modify id (Node.absorb k b g)) := by
  have hturned : n.Turned d (d.modify id (Node.absorb k b g)) := .of_labelled
    (.modify (fun m => m.kind_fill k b) fun m => m.place_fill k b)
  have hbranches : ∀ c ∈ ((d.node id).absorb k b g).branches, c.Wordless := by
    intro c hc
    rw [Node.absorb, Node.fill] at hc
    split_ifs at hc
    · exact h.traced.wordless rfl hk.holder c hc
    · rcases mem_or_eq_of_mem_set hc with hc | rfl
      · rcases mem_append.mp hc with hc | hc
        · exact h.traced.wordless rfl hk.holder c hc
        · rw [eq_of_mem_replicate hc]
          exact .nil
      · exact hb.reverse
  have hkind : ((d.node id).absorb k b g).kind = d.kind id := (d.node id).kind_fill k b
  refine ⟨h.modify hturned (fun hlt => ?_) (fun _ i => .inl ?_) fun _ hmem => ?_, hturned⟩
  · refine ⟨?_, rfl, fun hs => ?_, fun hs => ?_, fun c hc => (hbranches c hc).suits⟩
    · have hplace : ((d.node id).absorb k b g).place = d.place id := (d.node id).place_fill k b
      rw [hplace]
      exact (h.traced id hlt).file
    · exact absurd (hkind ▸ hs) hk.not_simple
    · exact absurd (hkind ▸ hs) hk.not_simple
  · rw [Node.branch]
    by_cases hi : i < ((d.node id).absorb k b g).branches.length
    · rw [getD_eq_getElem _ _ hi]
      exact hbranches _ (getElem_mem hi)
    · rw [getD_eq_default _ _ (not_lt.mp hi)]
      exact .nil
  · exact absurd (hkind ▸ hmem) hk.not_eligible

end Ready

/-! ### Taking in nodes -/

/-- What has been built of a branch without text: nodes in blocks and outside of them. -/
structure Stacked (n : Nesting κ) (d : Document) (p : Progress κ) : Prop where
  out : p.out.Wordless
  blocks : ∀ b ∈ p.blocks, b.content.Wordless ∧ n.IsBlock (d.kind b.node)

def Quiet (n : Nesting κ) (S : Sources) (V : String → Prop) (nested : NodeId → Edit Unit) : Prop :=
  ∀ {d d' : Document} {id : NodeId} {L : List NodeId}, d.Grove (id :: L) → n.Ready S V d →
    nested id d = .ok () d' → n.Ready S V d' ∧ n.Turned d d'

theorem Stacked.of_turned (h : n.Stacked d p) (ht : n.Turned d d') : n.Stacked d' p where
  out := h.out
  blocks b hb := by
    obtain ⟨hw, hk⟩ := h.blocks b hb
    exact ⟨hw, by rwa [ht.kind_eq b.node hk.not_eligible]⟩

theorem Stacked.put_node (h : n.Stacked d p) (x : NodeId) : n.Stacked d (p.put (.node x)) := by
  rw [Progress.put]
  cases hblocks : p.blocks with
  | nil => exact ⟨.append (.singleton x) h.out, fun b hb => by cases hb⟩
  | cons b outer =>
    have hall := h.blocks
    rw [hblocks, forall_mem_cons] at hall
    refine ⟨h.out, forall_mem_cons.mpr ⟨⟨.append (.singleton x) hall.1.1, hall.1.2⟩, hall.2⟩⟩

/-! ### Branches -/

/-- A branch has been nested: text that stood in it stands in it as before, and no other text. -/
structure Renested (n : Nesting κ) (d : Document) (b b' : Branch) : Prop where
  wordless : b.Wordless → b'.Wordless
  kept : (∀ c ∈ b.nodes, d.kind c ∉ n.eligible) → b' = Branch.ofFragments b

theorem Renested.suits {k : Kind} {q : Place} (h : n.Renested d b b')
    (hb : b.Suits S V k q) : b'.Suits S V k q := by
  refine hb.of_changed h.wordless fun s hs => ?_
  subst hs
  rw [h.kept fun c hc => by cases hc]
  by_cases hs : s = ""
  · subst hs
    exact .inr rfl
  · exact .inl (by simp [Branch.ofFragments, Branch.stack, hs])

theorem Renested.unmixed (h : n.Renested d b b') (hb : n.Unmixed d b) : n.Unmixed d b' := by
  rcases hb with hw | hc
  · exact .inl (h.wordless hw)
  · refine .inr fun c hmem => hc c ?_
    rwa [h.kept hc, nodes_ofFragments] at hmem

/-! ### Tables -/

variable [DecidableEq κ]

/-- The blocks of a table hold nodes only, and are no markers. Nothing is said about markers. -/
structure Apart (n : Nesting κ) : Prop where
  isBlock : ∀ {key : κ} {rule : BlockRule κ}, n.table.get? key = some rule → n.IsBlock rule.kind
  eligible : ∀ k ∈ n.eligible, k ∉ Kind.watched

theorem Stacked.take (hn : n.Apart) (hq : n.Quiet S V nested)
    (hheld : Held d p loose (id :: L)) (hd : n.Ready S V d) (h : n.Stacked d p) (hok : n.take nested p id d = .ok p' d') :
    n.Ready S V d' ∧ n.Turned d d' ∧ n.Stacked d' p' := by
  rcases take_cases hok with ⟨hnested, rfl⟩ | ⟨key, rule, hkey, hrule, hok⟩ |
    ⟨key, b, outer, -, hblocks, ⟨-, hok⟩ | ⟨next, hstep, hok⟩⟩
  · obtain ⟨hd', ht⟩ := hq hheld.grove_cons hd hnested
    exact ⟨hd', ht, (h.of_turned ht).put_node id⟩
  · obtain ⟨rfl, rfl⟩ := enter_eq_ok hok
    have hid := kind_eligible hkey
    obtain ⟨hd', ht⟩ := hd.asBlock (hn.isBlock hrule) hid
    have hlt : id < d.size := by
      by_contra hlt
      rw [kind, node_of_le (not_lt.mp hlt)] at hid
      exact hn.eligible _ hid (by decide)
    have hkind : (d.modify id (Node.asBlock rule.kind)).kind id = rule.kind := by
      rw [kind, modify_self hlt]
      rfl
    have hblock : n.IsBlock ((d.modify id (Node.asBlock rule.kind)).kind id) := by
      rw [hkind]
      exact hn.isBlock hrule
    have h' := h.of_turned ht
    exact ⟨hd', ht, h'.out, forall_mem_cons.mpr ⟨⟨.nil, hblock⟩, h'.blocks⟩⟩
  · obtain ⟨rfl, rfl⟩ := close_eq_ok hok
    have hall := h.blocks
    rw [hblocks, forall_mem_cons] at hall
    obtain ⟨hd', ht⟩ := hd.absorb (k := b.branch) (g := ({ · with closing := some id }))
      hall.1.2 hall.1.1
    have h' : n.Stacked d { p with blocks := outer } := ⟨h.out, hall.2⟩
    exact ⟨hd', ht, (h'.of_turned ht).put_node b.node⟩
  · obtain ⟨rfl, rfl⟩ := separate_eq_ok hok
    have hall := h.blocks
    rw [hblocks, forall_mem_cons] at hall
    obtain ⟨hd', ht⟩ := hd.absorb (k := b.branch) (g := (·.mark next.branch id)) hall.1.2 hall.1.1
    have hkind := ht.kind_eq b.node hall.1.2.not_eligible
    have h' : n.Stacked d { p with blocks := outer } := ⟨h.out, hall.2⟩
    refine ⟨hd', ht, h.out, forall_mem_cons.mpr ⟨⟨?_, ?_⟩, (h'.of_turned ht).blocks⟩⟩
    · rw [(step_separates hstep).1]
      exact (hd'.traced.wordless_branch hkind hall.1.2.holder _).reverse
    · show n.IsBlock (kind _ next.node)
      rw [(step_separates hstep).1, hkind]
      exact hall.1.2

theorem Stacked.foldlM (hn : n.Apart) (hq : n.Quiet S V nested)
    (htends : Tends nested) (hheld : Held d p loose (b.nodes ++ L)) (hd : n.Ready S V d)
    (h : n.Stacked d p) (hb : b.Wordless) (hok : b.foldlM (n.takeFragment nested) p d = .ok p' d') :
    n.Ready S V d' ∧ n.Turned d d' ∧ n.Stacked d' p' := by
  have hall := foldlM_induction (P := fun b p e => b.Wordless ∧
    (∃ loose, Held e p loose (b.nodes ++ L)) ∧ n.Ready S V e ∧ n.Turned d e ∧ n.Stacked e p)
    (fun ⟨hb, _⟩ => absurd List.mem_cons_self (hb _))
    (fun ⟨hb, ⟨loose, hheld⟩, hd, ht, h⟩ hstep => by
      rw [nodes_cons_node, cons_append] at hheld
      obtain ⟨hd1, ht1, h1⟩ := h.take hn hq hheld hd hstep
      exact ⟨hb.tail, (hheld.take htends hstep).held, hd1, ht.trans ht1, h1⟩)
    ⟨hb, ⟨loose, hheld⟩, hd, .refl _, h⟩ hok
  exact hall.2.2

theorem foldlM_quiet (hq : n.Quiet S V nested)
    (htends : Tends nested) (hheld : Held d p loose (b.nodes ++ L)) (hd : n.Ready S V d)
    (hp : p.blocks = []) (hb : ∀ c ∈ b.nodes, d.kind c ∉ n.eligible)
    (hok : b.foldlM (n.takeFragment nested) p d = .ok p' d') :
    n.Ready S V d' ∧ n.Turned d d' ∧ p'.out = b.foldl Branch.stack p.out := by
  induction b generalizing p d loose with
  | nil =>
    obtain ⟨rfl, rfl⟩ := pure_eq_ok.mp hok
    exact ⟨hd, .refl _, rfl⟩
  | cons f b ih =>
    have hput : ∀ f, (p.put f).blocks = [] ∧ (p.put f).out = p.out.stack f := fun f => by
      rw [Progress.put, hp]
      exact ⟨rfl, rfl⟩
    rw [foldlM_cons] at hok
    obtain ⟨p1, d1, hstep, hmore⟩ := bind_eq_ok.mp hok
    cases f with
    | text s =>
      obtain ⟨rfl, rfl⟩ := pure_eq_ok.mp hstep
      obtain ⟨hd', ht', hout⟩ := ih (hheld.put_text s) hd (hput _).1 hb hmore
      exact ⟨hd', ht', by rw [hout, (hput _).2]; rfl⟩
    | node id =>
      rw [nodes_cons_node, cons_append] at hheld
      obtain ⟨hid, hb⟩ := forall_mem_cons.mp hb
      obtain ⟨⟨loose1, hheld1⟩, -⟩ := hheld.take htends hstep
      rcases take_cases hstep with ⟨hnested, rfl⟩ | ⟨key, rule, hkey, -⟩ | ⟨key, o, outer, hkey, -⟩
      · obtain ⟨hd1, ht1⟩ := hq hheld.grove_cons hd hnested
        obtain ⟨hd', ht', hout⟩ :=
          ih hheld1 hd1 (hput _).1 (fun c hc => ht1.not_eligible (hb c hc)) hmore
        exact ⟨hd', ht1.trans ht', by rw [hout, (hput _).2]; rfl⟩
      · exact absurd (kind_eligible hkey) hid
      · exact absurd (kind_eligible hkey) hid

/-! ### Nesting below a node -/

theorem nestBranch_quiet (hn : n.Apart)
    (hq : n.Quiet S V nested) (htends : Tends nested) (hg : d.Grove (b.nodes ++ L))
    (hd : n.Ready S V d) (hb : n.Unmixed d b) (hok : n.nestBranch nested b d = .ok b' d') :
    n.Ready S V d' ∧ n.Turned d d' ∧ n.Renested d b b' := by
  obtain ⟨p, hfold, -, rfl⟩ := nestBranch_eq_ok hok
  have hstart : n.Stacked d ({} : Progress κ) := ⟨.nil, fun b hb => absurd hb not_mem_nil⟩
  have hheld : Held d ({} : Progress κ) [] (b.nodes ++ L) := ⟨.nil, hg⟩
  have hwordless := fun hw => hstart.foldlM hn hq htends hheld hd hw hfold
  have hkept := fun hc => foldlM_quiet hq htends hheld hd rfl hc hfold
  have hready : n.Ready S V d' ∧ n.Turned d d' := by
    rcases hb with hw | hc
    · exact ⟨(hwordless hw).1, (hwordless hw).2.1⟩
    · exact ⟨(hkept hc).1, (hkept hc).2.1⟩
  exact ⟨hready.1, hready.2, fun hw => (hwordless hw).2.2.out.reverse, fun hc => by
    rw [(hkept hc).2.2]
    rfl⟩

theorem nestNode_quiet (hn : n.Apart) (levels : Nat) : n.Quiet S V (n.nestNode levels) := by
  induction levels with
  | zero =>
    intro d d' id L _ hd hok
    obtain ⟨-, rfl⟩ := pure_eq_ok.mp hok
    exact ⟨hd, .refl _⟩
  | succ levels ih =>
    intro d d' id L hg hd hok
    suffices hP : n.Ready S V d' ∧ n.Turned d d' ∧ d'.Grove (id :: L) ∧ d'.kind id = d.kind id ∧
        (d'.branches id).length = (d.branches id).length from ⟨hP.1, hP.2.1⟩
    refine mapBranches_ind (P := fun _ e => n.Ready S V e ∧ n.Turned d e ∧
      e.Grove (id :: L) ∧ e.kind id = d.kind id ∧
      (e.branches id).length = (d.branches id).length) hok ⟨hd, .refl d, hg, rfl, rfl⟩ ?_
    rintro i hi d1 b d2 ⟨hd1, ht1, hg1, hk1, hlen1⟩ hok
    have hi1 : i < (d1.branches id).length := hlen1 ▸ hi
    have hzero : d1.kind id ∈ Kind.simple ++ n.eligible → i = 0 := fun hk => by
      have hone : (d1.branches id).length = 1 := by
        rcases mem_append.mp hk with hk | hk
        · exact hd1.traced.length_branches hk
        · exact hd1.single id hk
      rw [hone] at hi1
      exact Nat.lt_one_iff.mp hi1
    have hd0 : n.Ready S V (d1.setBranch id i []) :=
      hd1.setBranch hzero Branch.Wordless.nil.suits (.inl .nil)
    have ht0 : n.Turned d1 (d1.setBranch id i []) := .of_labelled .setBranch
    obtain ⟨hg0, -⟩ := hg1.takeBranch i
    have htended := nestBranch_tended (nestNode_tends levels) hg0 hok
    obtain ⟨hback, hlen2, -⟩ := hg1.tended_branch (C := []) .refl hi1
      (by rw [append_nil]; exact htended)
    obtain ⟨hd2, ht2, hrenested⟩ := nestBranch_quiet hn ih (nestNode_tends levels) hg0 hd0
      (ht0.unmixed (hd1.unmixed id i)) hok
    -- the node whose branch is out keeps its kind
    have hkind : d2.kind id = d1.kind id := by
      rw [kind, htended.frame.node_head]
      exact modify_of_eq Node.kind rfl
    have hplace : d2.place id = d1.place id := (ht2.place_eq id).trans (ht0.place_eq id)
    refine ⟨hd2.setBranch (hkind.symm ▸ hzero) ?_ ?_, ?_, ?_, ?_, ?_⟩
    · rw [hkind, hplace]
      exact hrenested.suits (hd1.traced.suits_branch id i)
    · exact ht2.unmixed (hrenested.unmixed (ht0.unmixed (hd1.unmixed id i)))
    · exact ht1.trans (ht0.trans (ht2.trans (.of_labelled .setBranch)))
    · exact hback.grove
    · rw [← hk1, ← hkind]
      exact modify_of_eq Node.kind rfl
    · exact hlen2.trans hlen1

theorem Ready.nest (hn : n.Apart) (hg : d.Grove (id :: L)) (hd : n.Ready S V d)
    (hok : n.nest id d = .ok () d') : n.Ready S V d' ∧ n.Turned d d' := by
  rw [Nesting.nest, get_bind] at hok
  exact nestNode_quiet hn d.size hg hd hok

end Nesting

/-! ### Reading a template -/

namespace Template

variable {S : Sources} {e : Document} {path s : String}

theorem nesting_apart : nesting.Apart where
  isBlock {key rule} h := by
    have hall : ∀ r ∈ blockTags.rules, r.2.kind ∈ Kind.holders ∧ r.2.kind ∉ Kind.simple ∧
        r.2.kind ∉ nesting.eligible := by decide
    obtain ⟨hholder, hsimple, heligible⟩ := hall _ (mem_of_lookup h)
    exact ⟨hholder, hsimple, heligible⟩
  eligible := by decide

theorem sourceOf_content (hg : d.Grove L) (hp : d.Plain) (hx : x < d.size)
    (hk : d.kind x = .content) (hnone : (d.node x).payload = .none)
    (hb : d.branches x = [[.text s]]) : d.sourceOf x = s := by
  rw [hg.sourceOf_eq hp hx, write_of_none hnone, hk, writeBranches, hb]
  simp [Kind.delimiters]

theorem traced_of_tokenize (hS : S path s)
    (h : grammar.tokenize [] [] root (.ofSource path s) = .ok () d) : d.Traced S V := by
  have ht := tokens_of_tokenize h
  obtain ⟨hretold, -⟩ := tokenize_retold h
  intro x hx
  have hplain : (d.node x).naming? = none := by
    rw [Node.naming?, ht.payload_eq x]
  rcases Nat.eq_zero_or_pos x with rfl | hpos
  · have hplace : (d.node root).place = Place.startOf path := (timed_of_tokenize h).2
    have hbranches : (d.node root).branches = [d.branch root 0] := ht.root_branches
    refine ⟨⟨s, by rw [hplace]; exact hS⟩, hplain, fun _ => ht.payload_eq root, fun _ => ?_,
      fun b hb => ?_⟩
    · rw [hbranches]
      rfl
    · rw [hbranches, List.mem_singleton] at hb
      rw [hb]
      exact ht.wordless.suits
  · have hexact := exact_of_tokenize h (ne_of_gt hpos) hx
    obtain ⟨pre, hstands⟩ := hexact.stands
    have hplace : (d.node x).place = Place.after path pre := hexact.place_eq pre hstands
    obtain ⟨b, hb, -⟩ := (ht.formed x hpos hx).branches_eq
    have hmade := (ht.formed x hpos hx).kind_mem
    refine ⟨⟨s, by rw [hplace]; exact hS⟩, hplain, fun _ => ht.payload_eq x, fun _ => ?_,
      fun c hc => ?_⟩
    · rw [← branches, hb]
      rfl
    · have hnever : ∀ k ∈ layout.made, k ∉ Kind.holders ∧ k ≠ .expanded := by decide
      obtain ⟨hholder, hexpanded⟩ := hnever _ hmade
      refine ⟨fun hk => absurd hk hholder, fun hk => ?_, fun hk => absurd hk hexpanded⟩
      rcases ht.content hk with hb' | ⟨text, -, hb'⟩ <;> rw [branches] at hb' <;>
        rw [hb', List.mem_singleton] at hc <;> subst hc
      · exact .inl .nil
      · obtain ⟨post, hsource⟩ := hexact.source_eq pre hstands
        rw [sourceOf_content hretold.grove hretold.plain hx hk (ht.payload_eq x) hb'] at hsource
        exact .inr ⟨text, rfl, path, pre, post, hsource ▸ hS, hplace⟩

theorem Tokens.kind_of_not_token (h : Tokens d) (hx : ¬ (1 ≤ x ∧ x < d.size)) : d.kind x = .root := by
  rcases Nat.eq_zero_or_pos x with rfl | hpos
  · exact h.root_kind
  · rw [kind, node_of_le (not_lt.mp fun hlt => hx ⟨hpos, hlt⟩)]

theorem ready_of_tokenize (hS : S path s)
    (h : grammar.tokenize [] [] root (.ofSource path s) = .ok () d) : nesting.Ready S V d where
  traced := traced_of_tokenize hS h
  unmixed x i := by
    have ht := tokens_of_tokenize h
    by_cases hx : 1 ≤ x ∧ x < d.size
    · -- inside of a token there are no tags
      have hinside : ∀ k ∈ layout.made, ∀ k' ∈ layout.inside k, k' ∉ nesting.eligible := by decide
      have hformed := ht.formed x hx.1 hx.2
      obtain ⟨b, hb, hfills⟩ := hformed.branches_eq
      refine .inr fun c hc => ?_
      obtain ⟨b', hb', hc⟩ := mem_kids.mp (mem_kids_of_branch hc)
      rw [hb, List.mem_singleton] at hb'
      exact hinside _ hformed.kind_mem _ (hfills.nodes c (hb' ▸ hc))
    · exact .inl ((traced_of_tokenize (V := V) hS h).wordless_branch (ht.kind_of_not_token hx)
        (by decide) i)
  single x hk := by
    have ht := tokens_of_tokenize h
    have hx : 1 ≤ x ∧ x < d.size := by
      by_contra hx
      rw [ht.kind_of_not_token hx] at hk
      exact absurd hk (by decide)
    obtain ⟨b, hb, -⟩ := (ht.formed x hx.1 hx.2).branches_eq
    rw [hb]
    rfl

/-- Tags may have got the kind their name asks for. All else is as before. -/
structure Specialized (d e : Document) : Prop where
  size_eq : e.size = d.size
  node_eq : ∀ x, e.node x = { d.node x with kind := e.kind x }
  kind_eq : ∀ x, d.kind x ≠ .tag → e.kind x = d.kind x
  kind_mem : ∀ x, d.kind x = .tag → e.kind x ∈ .tag :: inlineTags.map Prod.snd

theorem Specialized.setKind {k : Kind} (h : Specialized d e) (hx : d.kind x = .tag)
    (hk : k ∈ inlineTags.map Prod.snd) : Specialized d (e.setKind x k) where
  size_eq := (size_modify _ _ _).trans h.size_eq
  node_eq y := by
    rw [kind, Document.setKind]
    rcases node_modify_cases e x ({ · with kind := k }) y with heq | ⟨-, rfl, heq⟩
    · rw [heq]
      exact h.node_eq y
    · rw [heq, h.node_eq]
  kind_eq y hy := by
    have hne : y ≠ x := fun heq => hy (by rw [heq]; exact hx)
    rw [kind, Document.setKind, modify_ne hne]
    exact h.kind_eq y hy
  kind_mem y hy := by
    rw [kind, Document.setKind]
    rcases node_modify_cases e x ({ · with kind := k }) y with heq | ⟨-, rfl, heq⟩
    · rw [heq]
      exact h.kind_mem y hy
    · rw [heq]
      exact mem_cons_of_mem _ hk

theorem specialized_specialize (d : Document) : Specialized d (specialize d) := by
  rw [specialize]
  refine List.foldlRecOn _ _ ⟨rfl, fun _ => rfl, fun _ _ => rfl, fun _ hx => ?_⟩
    fun e h x hx => ?_
  · rw [hx]
    exact List.mem_cons_self
  · split
    case h_1 k hlookup =>
      obtain ⟨name, -, hlookup⟩ := Option.bind_eq_some_iff.mp hlookup
      refine h.setKind ?_ (mem_map.mpr ⟨_, mem_of_lookup hlookup, rfl⟩)
      exact List.mem_singleton.mp (contains_iff_mem.mp (mem_filter.mp hx).2)
    case h_2 => exact h

theorem Specialized.ready (hs : Specialized d e) (h : nesting.Ready S V d) :
    nesting.Ready S V e where
  traced x hx := by
    have hn := h.traced x (hs.size_eq ▸ hx)
    rw [hs.node_eq]
    by_cases hk : d.kind x = .tag
    · have hfree : ∀ k ∈ Kind.tag :: inlineTags.map Prod.snd, k ∉ Kind.watched := by decide
      exact hn.setKind (hfree _ (hs.kind_mem x hk))
    · rw [hs.kind_eq x hk]
      exact hn
  unmixed x i := by
    have hbranch : e.branch x i = d.branch x i := by rw [branch, hs.node_eq]; rfl
    rw [hbranch]
    refine (h.unmixed x i).imp_right fun hc c hmem => ?_
    rw [hs.kind_eq c fun hk => hc c hmem (hk ▸ by decide)]
    exact hc c hmem
  single x hk := by
    have hbranches : e.branches x = d.branches x := by rw [branches, hs.node_eq]; rfl
    rw [hbranches]
    refine h.single x ?_
    by_cases htag : d.kind x = .tag
    · rw [htag]
      decide
    · rwa [hs.kind_eq x htag] at hk

theorem parse_sourced (hS : S path s) (h : parse (.ofSource path s) = .ok () d) : Sourced S V d := by
  obtain ⟨_, d1, htok, h⟩ := bind_eq_ok.mp h
  obtain ⟨_, d2, hspecial, hnest⟩ := bind_eq_ok.mp h
  cases hspecial
  have hg1 : d1.Grove [root] := (Grammar.tokenize_tended (grove_ofSource path s) .refl htok).1.grove
  have hg2 := ((specialize_thinned d1).sustained hg1).grove
  have hspecialized := specialized_specialize d1
  have hroot : (specialize d1).kind root = .root := by
    have hroot := (tokens_of_tokenize htok).root_kind
    rw [hspecialized.kind_eq root (by rw [hroot]; decide), hroot]
  obtain ⟨hready, hturned⟩ := Nesting.Ready.nest nesting_apart hg2
    (hspecialized.ready (ready_of_tokenize hS htok)) hnest
  refine ⟨(Nesting.nest_tended hg2 hnest).grove, hready.traced, ?_⟩
  rw [hturned.kind_eq root (by rw [hroot]; decide), hroot]

end Template

end Stencil
