import Stencil.Proofs.Doc.Dissolving
import Stencil.Proofs.Template.Layers

/-!
# The text between two tags

Written with all its markers, a template is the text it was read from. In this text a node stands inside
of the text of the node that has it in a branch, so **what the branches of raw output are written as is
the text between its two tags** (`Parsed.raw_region`).

Where blocks of some kinds are removed or dissolved, a part of this text is written. It is all of the
text exactly if below the raw output there is no such block and no marker without the branch that it
starts (`Parsed.writeBranches_fated_iff`).
-/

namespace Stencil

open List String

variable {d : Document} {c x y : NodeId} {w : NodeId → String} {s : String}

theorem TextPart.behind {a b : String} (h : TextPart a b) (hs : s ≠ "") :
    TextPart a (s ++ b) ∧ a ≠ s ++ b := by
  have hpart := (TextPart.empty s).append h
  rw [empty_append] at hpart
  refine ⟨hpart, fun heq => hs ?_⟩
  have hboth := ((TextPart.empty s).append_eq_iff h).mp (by rw [empty_append, heq])
  exact hboth.1.symm

namespace Document

variable {w' : NodeId → String} {b b' : Branch} {bs : List Branch} {body : Body}
  {L : List NodeId}

theorem writeBranch_of_mem (w : NodeId → String) (h : c ∈ b.nodes) :
    ∃ front back, writeBranch w b = front ++ w c ++ back := by
  obtain ⟨l, r, rfl⟩ := List.append_of_mem (Branch.mem_nodes.mp h)
  refine ⟨writeBranch w l, writeBranch w r, ?_⟩
  rw [writeBranch_append, branch_cons_node, String.append_assoc]

theorem writeBranch_sublist (w : NodeId → String) (h : b.Sublist b') :
    TextPart (writeBranch w b) (writeBranch w b') := by
  rw [TextPart, writeBranch_eq_join, writeBranch_eq_join, toList_join, toList_join]
  exact (h.map _).flatMap _

theorem writeBody_of_markers_eq_nil (h : body.markers = []) : writeBody w bs body =
    String.join (bs.map (writeBranch w)) ++ (body.closing.map w).getD "" := by
  have hmarkers : ∀ i, writeMarkers w body i = "" := fun i => by
    rw [writeMarkers, h]
    rfl
  rw [writeBody_def]
  simp only [hmarkers, empty_append]
  exact congrArg (fun l => String.join l ++ _) (zipIdx_map_fst 0 _)

theorem flatten_sublist_flat (body : Body) (bs : List Branch) : bs.flatten.Sublist (body.flat bs) := by
  have hflat : bs.flatten = (List.range bs.length).flatMap fun i => bs.getD i [] := by
    rw [flatMap_def]
    congr 1
    refine ext_getElem (by simp) fun i hi hi' => ?_
    simp [hi]
  have hrange : (List.range bs.length).Sublist (List.range (max bs.length body.span)) :=
    range_sublist.mpr (Nat.le_max_left _ _)
  rw [hflat, Body.flat, Body.flatTo]
  exact ((hrange.flatMap _).trans (List.Sublist.flatMap_right _ fun i _ =>
    sublist_append_right _ _)).trans (sublist_append_left _ _)

theorem Grove.render_whole_kid (h : d.Grove L) (hp : d.Plain) (hx : x < d.size) (hc : c ∈ d.kids x) :
    ∃ front back, d.render Manner.whole x = front ++ d.render Manner.whole c ++ back := by
  have hflat : c ∈ Branch.nodes (d.branches x).flatten := by
    rw [nodes_flatten]
    exact hc
  rw [h.render_eq Manner.local_whole hp hx]
  cases hpay : (d.node x).payload with
  | none =>
    obtain ⟨front, back, heq⟩ := writeBranch_of_mem (d.render Manner.whole) hflat
    rw [Manner.orderly_whole.of_none hpay, Option.getD_none, write_of_none hpay, writes_eq_flatten, heq]
    exact ⟨((d.kind x).delimiters.getD ("", "")).1 ++ front,
      back ++ ((d.kind x).delimiters.getD ("", "")).2, by simp only [String.append_assoc]⟩
  | body body =>
    have hmem : c ∈ (body.flat (d.branches x)).nodes :=
      ((flatten_sublist_flat body (d.branches x)).filterMap _).subset hflat
    obtain ⟨front, back, heq⟩ := writeBranch_of_mem (d.render Manner.whole) hmem
    rw [Manner.orderly_whole.of_body hpay (.inl trivial), wholeBody_eq, heq]
    exact ⟨(d.kind x).openingDelimiters.1 ++ writeBranch (d.render Manner.whole) body.opening ++
      (d.kind x).openingDelimiters.2 ++ front, back, by simp only [String.append_assoc]⟩
  | naming m => exact absurd (hp x) (by simp [Node.naming?, hpay])

theorem Grove.render_whole_below (h : d.Grove L) (hp : d.Plain) (hx : x < d.size)
    (hr : Reaches d.kids x y) :
    ∃ front back, d.render Manner.whole x = front ++ d.render Manner.whole y ++ back := by
  induction hr with
  | refl => exact ⟨"", "", by rw [empty_append, append_empty]⟩
  | @tail p y hp' hy ih =>
    obtain ⟨front, back, heq⟩ := ih
    obtain ⟨front', back', heq'⟩ := h.render_whole_kid hp
      (h.lt_of_reaches hx (Reaches.mono d.kids_sub hp')) hy
    exact ⟨front ++ front', back' ++ back, by rw [heq, heq']; simp only [String.append_assoc]⟩

/-- The text between the tags of a block. -/
def textInside (d : Document) (x : NodeId) : String := d.writeBranches (d.render Manner.whole) x

/-- The text of the tag that opens a block. -/
def openingTag (d : Document) (x : NodeId) : String :=
  "\x7b%" ++ writeBranch (d.render Manner.whole) (d.node x).body.opening ++ "%\x7d"

/-- The text of the tag that closes a block, if there is one. -/
def closingTag (d : Document) (x : NodeId) : String :=
  ((d.node x).body.closing.map (d.render Manner.whole)).getD ""

end Document

namespace Template

open Document

variable {f : Kind → Fate} {r : NodeId}

theorem Layered.payload_eq (h : Layered [] d) (hx : d.kind x ∈ blockKinds) :
    (d.node x).payload = .body (d.node x).body := by
  obtain ⟨c, hc, -⟩ := h.closed x hx not_mem_nil
  cases hpay : (d.node x).payload with
  | body b => rw [Node.body, Node.body?, hpay, Option.getD_some]
  | none => simp [Node.body, Node.body?, hpay] at hc
  | naming m => simp [Node.body, Node.body?, hpay] at hc

section

variable (hp : Parsed s d) (h : Layered [] d)
include hp h

theorem Parsed.render_block (hx : d.kind x ∈ blockKinds)
    (hpart : ∀ c ∈ d.kids x, TextPart (w c) (d.render Manner.whole c)) :
    ∃ rest, d.render Manner.whole x = "\x7b%" ++ rest ∧ TextPart (d.writeBranches w x) rest := by
  have hopening : ∀ k ∈ blockKinds, k ≠ .root ∧ k.openingDelimiters = ("\x7b%", "%\x7d") := by decide
  obtain ⟨hroot, hdel⟩ := hopening _ hx
  refine ⟨writeBranch (d.render Manner.whole) (d.node x).body.opening ++ "%\x7d" ++
    wholeBody (d.render Manner.whole) (d.branches x) (d.node x).body, ?_, ?_⟩
  · rw [hp.grove.render_eq Manner.local_whole hp.plain (lt_of_kind_ne hroot),
      Manner.orderly_whole.of_body (h.payload_eq hx) (.inl trivial), hdel]
    simp only [String.append_assoc]
  have hbranches : TextPart (d.writeBranches w x) (d.writeBranches (d.render Manner.whole) x) :=
    .join_map fun b hb => (writeBranch_part fun c hc => hpart c (mem_kids.mpr ⟨b, hb, hc⟩)).2
  have hwhole : TextPart (d.writeBranches (d.render Manner.whole) x)
      (wholeBody (d.render Manner.whole) (d.branches x) (d.node x).body) := by
    rw [wholeBody_eq, writes_eq_flatten]
    exact writeBranch_sublist _ (flatten_sublist_flat _ _)
  have hfront := (TextPart.empty (writeBranch (d.render Manner.whole) (d.node x).body.opening ++
    "%\x7d")).append (hbranches.trans hwhole)
  rwa [empty_append] at hfront

theorem Parsed.render_closing (hc : d.kind c ∈ nesting.eligible) :
    d.render Manner.whole c = "\x7b%" ++ d.writeBranches (d.render Manner.whole) c ++ "%\x7d" := by
  have heligible : ∀ k ∈ nesting.eligible, k ≠ .root ∧ k ∉ blockKinds ∧
      k.delimiters = some ("\x7b%", "%\x7d") := by decide
  obtain ⟨hroot, hblock, hdel⟩ := heligible _ hc
  have hpay := h.bare c hblock
  rw [hp.grove.render_eq Manner.local_whole hp.plain (lt_of_kind_ne hroot),
    Manner.orderly_whole.of_none hpay, Option.getD_none, write_of_none hpay, hdel]
  rfl

theorem Parsed.raw_region (hr : Reaches d.kids root r)
    (hraw : d.kind r = .rawOutput) : ∃ before closing after,
      s = before ++ d.openingTag r ++ d.textInside r ++ d.closingTag r ++ after ∧
        d.closingTag r = "\x7b%" ++ closing ++ "%\x7d" := by
  have hblock : d.kind r ∈ blockKinds := by
    rw [hraw]
    decide
  have hdel : (d.kind r).openingDelimiters = ("\x7b%", "%\x7d") := by
    rw [hraw]
    decide
  have hlt := lt_of_kind_ne (d := d) (x := r) (by rw [hraw]; decide)
  obtain ⟨c, hc, heligible⟩ := h.closed r hblock not_mem_nil
  obtain ⟨front, back, heq⟩ := hp.grove.render_whole_below hp.plain
    hp.grove.lt_head hr
  have hclosing : d.closingTag r = d.render Manner.whole c := by
    rw [closingTag, hc, Option.map_some, Option.getD_some]
  refine ⟨front, d.writeBranches (d.render Manner.whole) c, back, ?_,
    hclosing.trans (hp.render_closing h heligible)⟩
  rw [← hp.whole_eq, heq, hp.grove.render_eq Manner.local_whole hp.plain hlt,
    Manner.orderly_whole.of_body (h.payload_eq hblock) (.inl trivial), hdel,
    whole_of_no_markers (h.unmarked r hraw),
    writeBody_of_markers_eq_nil (h.unmarked r hraw)]
  simp only [String.append_assoc, textInside, writeBranches, openingTag, closingTag]

theorem Parsed.render_fated (hf : ∀ k, f k ≠ .kept → k ∈ blockKinds) (hx : x < d.size) :
    TextPart (d.render (Manner.source.fated f) x) (d.render Manner.whole x) ∧
      (d.render (Manner.source.fated f) x = d.render Manner.whole x ↔
        ∀ y, Reaches d.refs x y → f (d.kind y) = .kept ∧ d.Complete y) := by
  have hm : (Manner.source.fated f).Textual := Manner.textual_fated Manner.textual_source f
  refine hp.grove.part_of_step (fun x hx hpart => ?_) hx
  have hrender := render_textual hm hp.grove hx fun y _ => hp.plain y
  cases hfate : f (d.kind x) with
  | kept =>
    rw [hrender, Manner.fated_of_kept hfate, Manner.source, Option.getD_none,
      hp.grove.render_eq Manner.local_whole hp.plain hx]
    obtain ⟨hpart', hiff⟩ := writeDefault_whole (hp.plain x) hpart (hp.marker_ne_empty x)
    exact ⟨hpart', hiff.trans (by simp)⟩
  | removed =>
    obtain ⟨rest, hrest, -⟩ := hp.render_block h (hf _ (by rw [hfate]; decide)) fun c hc =>
      hpart c (d.kids_sub x hc)
    rw [hrender, Manner.fated_of_removed hfate, Option.getD_some, hrest]
    obtain ⟨hpart', hne⟩ := (TextPart.empty rest).behind (s := "\x7b%") (by decide)
    exact ⟨hpart', iff_of_false hne fun hall => by cases hall.1.1⟩
  | dissolved =>
    obtain ⟨rest, hrest, hinner⟩ := hp.render_block h (hf _ (by rw [hfate]; decide)) fun c hc =>
      hpart c (d.kids_sub x hc)
    rw [hrender, Manner.fated_of_dissolved hfate, Option.getD_some, hrest]
    obtain ⟨hpart', hne⟩ := hinner.behind (s := "\x7b%") (by decide)
    exact ⟨hpart', iff_of_false hne fun hall => by cases hall.1.1⟩

end

theorem Layered.complete_of_body (h : Layered [] d) (hf : ∀ k, f k ≠ .kept → k ∈ blockKinds)
    (hc : c ∈ (d.node x).body.references) (hr : Reaches d.refs c y) :
    f (d.kind y) = .kept ∧ d.Complete y := by
  have hfree : ∀ k ∈ markerKinds, k ∉ blockKinds := by decide
  have hblock := hfree _ (h.kind_of_body hc hr)
  refine ⟨by_contra fun hk => hblock (hf _ hk), fun m hm => ?_⟩
  rw [Node.body, Node.body?, h.bare y hblock] at hm
  cases hm

theorem forall_reaches_refs {P : NodeId → Prop}
    (hbody : ∀ {x c y}, c ∈ (d.node x).body.references → Reaches d.refs c y → P y)
    (hkids : ∀ y, Reaches d.kids x y → P y) (hr : Reaches d.refs x y) : P y := by
  induction hr using Relation.ReflTransGen.head_induction_on with
  | refl => exact hkids _ .refl
  | @head p c hc hcr ih =>
    rcases mem_append.mp ((d.node p).references_perm.mem_iff.mp hc) with hc | hc
    · exact hbody hc hcr
    · exact ih fun y hy => hkids y (.head hc hy)

theorem Parsed.writeBranches_fated_iff (hp : Parsed s d) (h : Layered [] d)
    (hf : ∀ k, f k ≠ .kept → k ∈ blockKinds) (hkept : f .rawOutput = .kept)
    (hraw : d.kind r = .rawOutput) :
    d.writeBranches (d.render (Manner.source.fated f)) r = d.textInside r ↔
      ∀ y, Reaches d.kids r y → f (d.kind y) = .kept ∧ d.Complete y := by
  have hkid : ∀ b ∈ d.branches r, ∀ c ∈ b.nodes, c < d.size := fun b hb c hc =>
    hp.grove.lt_of_refs (refs_of_branch hb hc)
  have hparts : ∀ b ∈ d.branches r, ∀ c ∈ b.nodes,
      TextPart (d.render (Manner.source.fated f) c) (d.render Manner.whole c) := fun b hb c hc =>
    (hp.render_fated h hf (hkid b hb c hc)).1
  rw [textInside, writeBranches, writeBranches, TextPart.join_map_eq_iff fun b hb =>
    (writeBranch_part (hparts b hb)).2]
  constructor
  · intro hall y hy
    rcases hy.eq_or_child with rfl | ⟨c, hc, hy⟩
    · refine ⟨by rw [hraw, hkept], fun m hm => ?_⟩
      rw [h.unmarked r hraw] at hm
      cases hm
    · obtain ⟨b, hb, hcb⟩ := mem_kids.mp hc
      have heq := (writeBranch_eq_iff (hparts b hb)).mp (hall b hb) c hcb
      exact (hp.render_fated h hf (hkid b hb c hcb)).2.mp heq y (hy.mono d.kids_sub)
  · intro hall b hb
    refine branch_congr fun c hc => (hp.render_fated h hf (hkid b hb c hc)).2.mpr fun y hy => ?_
    exact forall_reaches_refs (h.complete_of_body hf) (fun y hy =>
      hall y (.head (mem_kids.mpr ⟨b, hb, hc⟩) hy)) hy

end Template

end Stencil
