import Stencil.Proofs.Markup.Origins
import Stencil.Proofs.Markup.Sparing
import Stencil.Proofs.Template.Regions

/-!
# Raw output

The passes over a template do not look for nodes in raw output, but for two of them: the tags of blocks
and the sections for debugging are looked for everywhere. So a pass keeps what is written for raw
output, or blocks of one kind are removed or dissolved in it (`Treats`).

**For raw output the text between its two tags is written, without these tags and sections and without
markers of branches that are missing** (`raw_output_between_tags`); it is written as it is exactly if it
has none of them.
-/

namespace Stencil

open Document List

namespace Manner

variable {f g h : Kind → Fate}

theorem fated_fated (m : Manner) (hfg : ∀ k, h k = if f k = .kept then g k else f k) :
    (m.fated g).fated f = m.fated h := by
  funext d w id
  have hboth := hfg (d.kind id)
  cases hf : f (d.kind id) with
  | kept =>
    rw [hf, if_pos rfl] at hboth
    rw [fated_of_kept hf, fated, fated, hboth]
  | removed =>
    rw [hf, if_neg (by decide)] at hboth
    rw [fated_of_removed hf, fated_of_removed hboth]
  | dissolved =>
    rw [hf, if_neg (by decide)] at hboth
    rw [fated_of_dissolved hf, fated_of_dissolved hboth]

end Manner

theorem Document.outputOf_raw {d : Document} {r : NodeId} (h : d.kind r = .rawOutput) :
    d.outputOf r = d.writeBranches (d.render Manner.source) r := by
  have hlt : r < d.size := lt_of_kind_ne (by rw [h]; decide)
  obtain ⟨k, hk⟩ := Nat.exists_eq_succ_of_ne_zero (ne_of_gt (Nat.zero_lt_of_lt hlt))
  rw [outputOf, render, hk, writeNode, Output.manner, h]
  rfl

namespace Template

variable {d d' d'' : Document} {f g h : Kind → Fate} {fate : NodeId → Fate} {k : Kind}
  {r x y : NodeId} {L : List NodeId}

/-- What belongs to the markers below a node leads to no block. -/
def Blockless (d : Document) (r : NodeId) : Prop :=
  ∀ y, Reaches d.kids r y → ∀ c ∈ (d.node y).body.references, ∀ z, Reaches d.refs c z →
    d.kind z ∈ markerKinds

/-- What a change does to raw output that can be reached afterwards: below it, nodes get the fate that
their kind has. -/
structure Treats (f : Kind → Fate) (d d' : Document) : Prop where
  kind_eq : ∀ {r}, d.kind r = .rawOutput → d'.kind r = .rawOutput
  reaches : ∀ {r}, d.kind r = .rawOutput → Reaches d'.kids root r → Reaches d.kids root r
  blockless : ∀ {r}, d.kind r = .rawOutput → Reaches d'.kids root r → Blockless d r → Blockless d' r
  text : ∀ {r} {m : Manner}, d.kind r = .rawOutput → Reaches d'.kids root r → Blockless d r →
    m.Textual → d'.writeBranches (d'.render m) r = d.writeBranches (d.render (m.fated f)) r

namespace Treats

theorem refl (d : Document) : Treats (fun _ => .kept) d d :=
  ⟨fun hk => hk, fun _ hr => hr, fun _ _ hb => hb, fun _ _ _ _ => rfl⟩

theorem trans (h1 : Treats f d d') (h2 : Treats g d' d'')
    (hfg : ∀ k, h k = if f k = .kept then g k else f k) : Treats h d d'' where
  kind_eq hk := h2.kind_eq (h1.kind_eq hk)
  reaches hk hr := h1.reaches hk (h2.reaches (h1.kind_eq hk) hr)
  blockless hk hr hb :=
    have hr' := h2.reaches (h1.kind_eq hk) hr
    h2.blockless (h1.kind_eq hk) hr (h1.blockless hk hr' hb)
  text {r m} hk hr hb hm := by
    have hk' := h1.kind_eq hk
    have hr' := h2.reaches hk' hr
    have hm' : (m.fated g).Textual := Manner.textual_fated hm g
    rw [h2.text hk' hr (h1.blockless hk hr' hb) hm, h1.text hk hr' hb hm', m.fated_fated hfg]

theorem kept_trans (h1 : Treats f d d') (hf : ∀ k, f k = .kept) (h2 : Treats g d' d'') :
    Treats g d d'' :=
  h1.trans h2 fun k => by rw [hf, if_pos rfl]

theorem trans_kept (h1 : Treats f d d') (h2 : Treats (fun _ => .kept) d' d'') : Treats f d d'' :=
  h1.trans h2 fun k => by
    split_ifs with hk
    · exact hk
    · rfl

theorem of_intact (ht : d.Templated) (hg : d'.Grove L)
    (hi : ∀ e : Enclave, e.Intact d → e.Intact d') : Treats (fun _ => .kept) d d' where
  kind_eq hk := ((hi _ (intact_rawEnclave ht hk)).kind_eq .refl).trans hk
  reaches hk hr := reaches_of_lostEnclave (hi _ (intact_lostEnclave ht))
    (lt_of_kind_ne (by rw [hk]; decide)) hr
  blockless {r} hk _ hb := by
    have halike : ∀ {x}, Reaches d.refs r x → (d.node x).Alike (d'.node x) :=
      (hi _ (intact_rawEnclave ht hk)).alike
    intro y hy c hc z hz
    have hy := (Reaches.congr_iff fun x hx =>
      (halike (Reaches.mono d.kids_sub hx)).kids_eq).mp hy
    have hry := Reaches.mono d.kids_sub hy
    rw [(halike hry).body_eq] at hc
    have hrc := hry.tail ((d.node y).body_refs_sub hc)
    have hz := (Reaches.congr_iff fun x hx => (halike (hrc.trans hx)).references_eq).mp hz
    rw [kind, (halike (hrc.trans hz)).kind_eq]
    exact hb y hy c hc z hz
  text hk _ _ hm := writeBranches_rawEnclave (hi _ (intact_rawEnclave ht hk)) hm hg

theorem of_rebuilt (ht : d.Templated) (ht' : d'.Templated) (h : d.Rebuilt fate root d d')
    (hfate : ∀ y, Reaches d.kids root y → fate y = f (d.kind y))
    (hf : ∀ k, f k ≠ .kept → k ∈ Kind.templateBlocks) : Treats f d d' := by
  have hkept : ∀ k, k ∉ Kind.templateBlocks → f k = .kept := fun k hk =>
    by_contra fun hne => hk (hf k hne)
  have hmarkers : ∀ k ∈ markerKinds, f k = .kept := fun k hk =>
    hkept k ((by decide : ∀ k ∈ markerKinds, k ∉ Kind.templateBlocks) k hk)
  have hraw : ∀ {r}, d.kind r = .rawOutput → Reaches d.kids root r → fate r = .kept :=
    fun hk hr => by
      rw [hfate _ hr, hk]
      exact hkept _ (by decide)
  have hback : ∀ {r}, Reaches d'.kids root r → Reaches d.kids root r := fun hr =>
    (h.reaches .refl (.inl rfl) hr).1
  refine ⟨fun {r} hk => ?_, fun _ hr => hback hr, fun {r} hk hr hb => ?_, fun {r m} hk hr hb hm => ?_⟩
  · by_cases hr : Reaches d.kids root r
    · exact (h.recast r hr (.inr (by rw [hraw hk hr]; decide))).kind_eq.trans hk
    · exact (kind_congr (h.node_eq r hr)).trans hk
  · intro y hy c hc z hz
    obtain ⟨hry, hykept⟩ := h.reaches (hback hr) (.inr (hraw hk (hback hr))) hy
    have hrecast := h.recast y ((hback hr).trans hry)
      (hykept.imp_right fun hk => by rw [hk]; decide)
    have hbody : (d'.node y).body = (d.node y).body := by
      rw [Node.body, Node.body, Node.body?, Node.body?, hrecast.payload_eq]
    rw [hbody] at hc
    -- what belongs to markers is in no branch, so it stays as it is
    have hsame : ∀ x, Reaches d.refs c x → d'.node x = d.node x := fun x hx =>
      h.node_eq x (ht.grove.not_reaches_of_body hc hx)
    have hz := (Reaches.congr_iff fun x hx => by rw [refs, hsame x hx]; rfl).mp hz
    rw [kind_congr (hsame z hz)]
    exact hb y hry c hc z hz
  · exact h.render_eq hm ht.grove ht'.grove ht.plain ht'.plain (hback hr) (hraw hk (hback hr))
      (fun y hy => hfate y ((hback hr).trans hy)) fun y hy c hc z hz => hmarkers _ (hb y hy c hc z hz)

end Treats

def fateOf (k : Kind) (a : Fate) (j : Kind) : Fate := if j = k then a else .kept

theorem fateOf_ne_kept {a : Fate} {j : Kind} (h : fateOf k a j ≠ .kept) : j = k := by
  by_contra hne
  exact h (if_neg hne)

theorem collapseKind_treats (hc : Composed d) (hk : k ∈ Kind.templateBlocks) :
    Treats (fateOf k .dissolved) d (d.collapseKind root k) := by
  have hlt := hc.grove.lt_head
  have hholder : k ∈ Kind.holders := mem_cons_of_mem _ (mem_cons_of_mem _ hk)
  exact .of_rebuilt hc.templated (hc.collapseKind hholder).templated
    ((hc.grove.uniqueOwner hlt).rebuilt_collapseKind k) (fun _ _ => rfl) fun j hj => fateOf_ne_kept hj ▸ hk

theorem removeKind_treats (hc : Composed d) (hk : k ∈ Kind.templateBlocks) :
    Treats (fateOf k .removed) d (d.removeKind root k) := by
  have hlt := hc.grove.lt_head
  refine .of_rebuilt hc.templated (hc.removeNodes _).templated
    ((hc.grove.uniqueOwner hlt).rebuilt_removeNodes _)
    (fun y hy => ?_) fun j hj => fateOf_ne_kept hj ▸ hk
  -- every node of the kind below the root is found, and the root is not of the kind
  have hmem : y ∈ d.descendants root [k] [] ↔ d.kind y = k := by
    rw [mem_descendants_iff (hc.grove.shallow_kids hlt), mem_singleton]
    refine and_iff_right_of_imp fun hky => ?_
    rcases Relation.reflTransGen_iff_eq_or_transGen.mp hy with rfl | hbelow
    · rw [hc.root_kind] at hky
      exact absurd (hky ▸ hk) (by decide)
    · exact .of_encloses hbelow fun _ => rfl
  rw [fateOf]
  simp only [hmem]

theorem resolveDebug_treats (hc : Composed d) (debug : Bool) :
    Treats (fateOf .ifDebug (if debug then .dissolved else .removed)) d (resolveDebug debug d) := by
  cases debug with
  | true => exact collapseKind_treats hc (by decide)
  | false => exact removeKind_treats hc (by decide)

theorem substituteVariables_treats (hc : Composed d) (values : List (String × String)) :
    Treats (fun _ => .kept) d (substituteVariables values d) :=
  .of_intact hc.templated (hc.substituteVariables values).grove fun _ =>
    substituteVariables_intact values

theorem expandMacros_treats (hc : Composed d) : Treats (fun _ => .kept) d (expandMacros d) :=
  .of_intact hc.templated hc.expandMacros.grove fun _ => expandMacros_intact hc.grove

def fateInRaw (o : Options) (k : Kind) : Fate :=
  if k = .block ∧ o.removeBlockTags then .dissolved
  else if k = .ifDebug ∧ o.preprocessIfdebug then if o.debug then .dissolved else .removed
  else .kept

theorem fateInRaw_eq (o : Options) (k : Kind) : fateInRaw o k =
    if (if o.removeBlockTags then fateOf .block .dissolved k else .kept) = .kept then
      if o.preprocessIfdebug then fateOf .ifDebug (if o.debug then .dissolved else .removed) k
      else .kept
    else if o.removeBlockTags then fateOf .block .dissolved k else .kept := by
  rw [fateInRaw, fateOf, fateOf]
  by_cases hblock : k = .block
  · subst hblock
    cases o.removeBlockTags <;> simp
  · cases o.removeBlockTags <;> cases o.preprocessIfdebug <;> simp [hblock]

theorem fateInRaw_ne_kept {o : Options} (h : fateInRaw o k ≠ .kept) : k ∈ blockKinds := by
  rw [fateInRaw] at h
  split_ifs at h with hblock hdebug
  · rw [hblock.1]
    decide
  · rw [hdebug.1]
    decide
  · rw [hdebug.1]
    decide
  · exact absurd rfl h

theorem Composed.pass {change : Document → Document} {switch : Bool} {u : Unit} {j j' : Job}
    (hc : Composed j.document) (hok : Work.onlyIf switch (Work.apply change) j = .ok u j')
    (hc' : Composed (change j.document)) (ht : Treats f j.document (change j.document)) :
    Composed j'.document ∧
      Treats (fun k => if switch then f k else .kept) j.document j'.document := by
  rw [Work.document_onlyIf hok]
  cases switch with
  | true => exact ⟨hc', ht⟩
  | false => exact ⟨hc, .refl _⟩

theorem finishTemplate_treats {j j' : Job} (hc : Composed j.document)
    (hok : finishTemplate j = .ok () j') : ∃ j1, applyConfig j = .ok () j1 ∧
      Treats (fateInRaw j1.session.options) j.document j'.document := by
  have hgrove : j'.document.Grove [root] := by
    rw [← Passes.run_finishTemplate] at hok
    exact (Passes.finishTemplate_owning j hc.grove).ok _ _ hok
  obtain ⟨_, j1, hconfig, hok⟩ := bind_eq_ok.mp hok
  refine ⟨j1, hconfig, ?_⟩
  rw [← applyConfig_document hconfig] at hc ⊢
  rw [Work.options_bind] at hok
  generalize j1.session.options = o at hok ⊢
  obtain ⟨_, j2, h2, hok⟩ := bind_eq_ok.mp hok
  obtain ⟨_, j3, h3, hok⟩ := bind_eq_ok.mp hok
  obtain ⟨_, j4, h4, hok⟩ := bind_eq_ok.mp hok
  obtain ⟨_, j5, h5, hok⟩ := bind_eq_ok.mp hok
  obtain ⟨hc2, ht2⟩ := hc.pass h2 (hc.substituteVariables _) (substituteVariables_treats hc _)
  obtain ⟨hc3, ht3⟩ := hc2.pass h3 (hc2.collapseKind (by decide))
    (collapseKind_treats hc2 (by decide))
  obtain ⟨hc4, ht4⟩ := hc3.pass h4 hc3.expandMacros (expandMacros_treats hc3)
  obtain ⟨hc5, ht5⟩ := hc4.pass h5 (hc4.resolveDebug _) (resolveDebug_treats hc4 _)
  have hspares : ∀ e : Enclave, e.Intact j5.document → e.Intact j'.document := fun e he =>
    ((Work.Keeps.onlyIf (.apply groupLoads_intact) _).bind fun _ =>
      (Work.Keeps.apply removeComments_intact).bind fun _ =>
        (Markup.process_spares e).onlyIf _).kept he hok
  have ht6 := Treats.of_intact hc5.templated hgrove hspares
  have hdebug := ht4.kept_trans (fun _ => ite_self _) (ht5.trans_kept ht6)
  exact ht2.kept_trans (fun _ => ite_self _) (ht3.trans hdebug (fateInRaw_eq o))

def Standalone (d : Document) : Prop := nodesOf d [.extendsTag, .includeTag, .decorate] = []

instance (d : Document) : Decidable (Standalone d) :=
  inferInstanceAs (Decidable (nodesOf d [.extendsTag, .includeTag, .decorate] = []))

namespace Standalone

theorem kind_not_mem (h : Standalone d) (hg : d.Grove (root :: L))
    (hx : d.Met (fun y => !d.hasKind y [.rawOutput]) root x) :
    d.kind x ∉ [Kind.extendsTag, .includeTag, .decorate] := fun hk => by
  have hlt := hg.lt_head
  have hmem : x ∈ nodesOf d [.extendsTag, .includeTag, .decorate] :=
    (mem_descendants_iff (hg.shallow_kids hlt)).mpr ⟨hx, hk⟩
  rw [h] at hmem
  cases hmem

theorem descendants_eq_nil {closed : List Kind} (h : Standalone d) (hg : d.Grove (root :: L))
    (hk : k ∈ [Kind.extendsTag, .includeTag, .decorate]) (hclosed : .rawOutput ∈ closed) :
    d.descendants root [k] closed = [] := by
  refine eq_nil_iff_forall_not_mem.mpr fun x hx => ?_
  obtain ⟨hmet, hkind⟩ :=
    (mem_descendants_iff (hg.shallow_kids hg.lt_head)).mp hx
  refine h.kind_not_mem hg (hmet.mono fun y hy => ?_) (mem_singleton.mp hkind ▸ hk)
  -- raw output is not entered
  rw [Bool.not_eq_true', hasKind, ← Bool.not_eq_true, contains_iff_mem] at hy ⊢
  exact fun hraw => hy (mem_singleton.mp hraw ▸ hclosed)

theorem topNodes_eq_nil (h : Standalone d) (hg : d.Grove (root :: L)) :
    topNodes d [.extendsTag] = [] := by
  refine filter_eq_nil_iff.mpr fun x hx hk => ?_
  refine h.kind_not_mem hg (.kid (mem_kids_of_children hx)) ?_
  rw [hasKind, contains_iff_mem, mem_singleton] at hk
  rw [hk]
  decide

theorem assemble_eq {load : Loader} {j j' : Job} (h : Standalone d) (hg : d.Grove (root :: L))
    (hparse : parse j.document = .ok () d) (hok : assemble load j = .ok () j') :
    j' = { j with document := d } := by
  obtain ⟨_, j1, hedit, hok⟩ := bind_eq_ok.mp hok
  obtain ⟨_, j2, hextends, hok⟩ := bind_eq_ok.mp hok
  obtain ⟨_, j3, hincludes, hok⟩ := bind_eq_ok.mp hok
  obtain ⟨d1, hd1, rfl⟩ := Work.edit_eq_ok.mp hedit
  obtain rfl : d = d1 := by
    rw [hparse] at hd1
    cases hd1
    rfl
  rw [expandExtends, Work.document_bind, extend, h.topNodes_eq_nil hg] at hextends
  obtain ⟨d2, j2', htask, happly⟩ := bind_eq_ok.mp hextends
  obtain ⟨s2, hpure, rfl⟩ := Work.task_eq_ok.mp htask
  obtain ⟨rfl, rfl⟩ := pure_eq_ok.mp hpure
  obtain rfl := Work.apply_eq_ok.mp happly
  rw [expandIncludes, Work.document_bind,
    h.descendants_eq_nil hg (by decide) (mem_singleton_self _)] at hincludes
  obtain ⟨-, rfl⟩ := pure_eq_ok.mp hincludes
  rw [expandDecorates, Work.document_bind] at hok
  cases hsize : d.size with
  | zero =>
    rw [hsize] at hok
    exact (pure_eq_ok.mp hok).2.symm
  | succ n =>
    rw [hsize, expandDecoratesBelow, Work.document_bind,
      h.descendants_eq_nil hg (by decide) (by decide)] at hok
    exact (pure_eq_ok.mp hok).2.symm

end Standalone

theorem fateInRaw_eq_kept_iff {o : Options} : fateInRaw o k = .kept ↔
    (o.removeBlockTags → k ≠ .block) ∧ (o.preprocessIfdebug → k ≠ .ifDebug) := by
  rw [fateInRaw]
  by_cases hblock : k = .block
  · subst hblock
    cases o.removeBlockTags <;> simp
  · by_cases hdebug : k = .ifDebug
    · subst hdebug
      cases o.preprocessIfdebug <;> cases o.debug <;> simp
    · simp [hblock, hdebug]

/-- **For raw output the text between its tags is written, but for what options take out of it.** In a
template that refers to no other one, the options are those that it starts with and its own; the text
between the tags is written as it is exactly if there is no block in it whose tags are removed, no
section for debugging that is resolved, and no marker without the branch that it starts. -/
theorem raw_output_between_tags {path source : String} {s s' : Session} {d₀ d : Document}
    (hparse : parse (ofSource path source) = .ok () d₀) (halone : Standalone d₀)
    (hok : parseTemplate path source true s = .ok d s') :
    ∃ j, applyConfig { session := s, document := d₀ } = .ok () j ∧
      ∀ r ∈ nodesOf d₀ [.rawOutput],
        (∃ before closing after, source = before ++ d₀.openingTag r ++ d₀.textInside r ++
          d₀.closingTag r ++ after ∧ d₀.closingTag r = "\x7b%" ++ closing ++ "%\x7d") ∧
        (Reaches d.kids root r →
          d.outputOf r = d₀.writeBranches
            (d₀.render (Manner.source.fated (fateInRaw j.session.options))) r ∧
          (d.outputOf r = d₀.textInside r ↔ ∀ y, Reaches d₀.kids r y →
            (j.session.options.removeBlockTags → d₀.kind y ≠ .block) ∧
            (j.session.options.preprocessIfdebug → d₀.kind y ≠ .ifDebug) ∧ d₀.Complete y)) := by
  have hparsed := parse_whole hparse
  have hlayered := parse_layered hparse
  have hcomposed := parse_composed hparse
  obtain ⟨_, j1, hassemble, hfinish⟩ := bind_eq_ok.mp (onSource_eq_ok hok)
  obtain rfl := halone.assemble_eq (j := { session := s, document := ofSource path source })
    hparsed.grove hparse hassemble
  obtain ⟨j, hconfig, htreats⟩ := finishTemplate_treats hcomposed hfinish
  refine ⟨j, hconfig, fun r hr => ?_⟩
  have hbelow : Reaches d₀.kids root r := (encloses_of_descendant hr).to_reflTransGen
  have hraw : d₀.kind r = .rawOutput := List.mem_singleton.mp (kind_of_descendant hr)
  refine ⟨hparsed.raw_region hlayered hbelow hraw, fun hreached => ?_⟩
  have hwritten : d.outputOf r = d₀.writeBranches
      (d₀.render (Manner.source.fated (fateInRaw j.session.options))) r := by
    rw [outputOf_raw (htreats.kind_eq hraw)]
    exact htreats.text hraw hreached (fun y _ c hc z hz => hlayered.kind_of_body hc hz)
      Manner.textual_source
  refine ⟨hwritten, ?_⟩
  rw [hwritten, hparsed.writeBranches_fated_iff hlayered (fun _ => fateInRaw_ne_kept) rfl hraw]
  simp only [fateInRaw_eq_kept_iff, and_assoc]

def blockInRaw : String :=
  "a\x7b% !raw %\x7d\x7b% block b %\x7d\x7b\x7b c \x7d\x7d\x7b% endblock %\x7d\x7b% !endraw %\x7d"

/-- The tags of the block are not written. -/
theorem raw_output_between_tags_block : ∃ d₀ d s' r j,
    parse (ofSource "page" blockInRaw) = .ok () d₀ ∧ Standalone d₀ ∧
    parseTemplate "page" blockInRaw true {} = .ok d s' ∧
    r ∈ nodesOf d₀ [.rawOutput] ∧ Reaches d.kids root r ∧
    d₀.textInside r = "\x7b% block b %\x7d\x7b\x7b c \x7d\x7d\x7b% endblock %\x7d" ∧
    d.outputOf r = "\x7b\x7b c \x7d\x7d" ∧
    applyConfig { session := {}, document := d₀ } = .ok () j ∧
    d.outputOf r = d₀.writeBranches
      (d₀.render (Manner.source.fated (fateInRaw j.session.options))) r := by
  have hparsed : succeeds parse (ofSource "page" blockInRaw) (fun _ d =>
      decide (Standalone d) && (nodesOf d [.rawOutput]).contains 2 &&
        d.textInside 2 == "\x7b% block b %\x7d\x7b\x7b c \x7d\x7d\x7b% endblock %\x7d") =
      true := by
    decide +kernel
  have hcompiled : succeeds (parseTemplate "page" blockInRaw true) {} (fun d _ =>
      (d.descendants root [.rawOutput] []).contains 2 && d.outputOf 2 == "\x7b\x7b c \x7d\x7d") =
      true := by
    decide +kernel
  obtain ⟨_, d₀, hparse, hd0⟩ := of_succeeds hparsed
  obtain ⟨d, s', hok, hd⟩ := of_succeeds hcompiled
  simp only [Bool.and_eq_true, decide_eq_true_eq, List.contains_iff_mem, beq_iff_eq] at hd0 hd
  obtain ⟨⟨halone, hr⟩, htext⟩ := hd0
  obtain ⟨j, hconfig, hall⟩ := raw_output_between_tags hparse halone hok
  have hreached : Reaches d.kids root 2 := (encloses_of_descendant hd.1).to_reflTransGen
  exact ⟨d₀, d, s', 2, j, hparse, halone, hok, hr, hreached, htext, hd.2, hconfig,
    ((hall 2 hr).2 hreached).1⟩

end Template

end Stencil
