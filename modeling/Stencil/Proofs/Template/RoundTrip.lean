import Stencil.Proofs.Blocks.Nesting
import Stencil.Proofs.Doc.Completeness
import Stencil.Proofs.Lexing.Lossless

/-!
# Reading a template and writing it back

A template is split into tokens, which loses nothing; tags get other kinds, which are written alike
(`specialize_rekinded`); and tags are nested. With all markers, what is written for the document that
has been read is the text of the template (`parse_whole`).

By default a marker is left out if the branch that it starts is empty, as the `else` of
`{% if a %}b{% else %}{% endif %}`. So **the source of the document is the text of the template
exactly if no marker is without its branch**, and this does not change when the markup is read and
nested as well (`source_after_parsing_iff`).
-/

namespace Stencil

open Document List

variable {d d' d'' : Document} {L : List NodeId} {s : String}

theorem mem_of_lookup {α β : Type} [BEq α] [LawfulBEq α] {l : List (α × β)} {a : α} {b : β}
    (h : l.lookup a = some b) : (a, b) ∈ l := by
  obtain ⟨l1, l2, rfl, -⟩ := lookup_eq_some_iff.mp h
  simp

namespace Document

variable {x : NodeId}

/-- Nodes have got other kinds that are written with the same delimiters. -/
structure Rekinded (d d' : Document) : Prop where
  size_eq : d'.size = d.size
  node_eq : ∀ x, d'.node x = { d.node x with kind := d'.kind x }
  delimiters_eq : ∀ x, (d'.kind x).delimiters = (d.kind x).delimiters

theorem Rekinded.refl (d : Document) : d.Rekinded d := ⟨rfl, fun _ => rfl, fun _ => rfl⟩

theorem Rekinded.trans (h : d.Rekinded d') (h' : d'.Rekinded d'') : d.Rekinded d'' where
  size_eq := h'.size_eq.trans h.size_eq
  node_eq x := by rw [h'.node_eq, h.node_eq]
  delimiters_eq x := (h'.delimiters_eq x).trans (h.delimiters_eq x)

theorem Rekinded.setKind {kind : Kind} (h : kind.delimiters = (d.kind x).delimiters) :
    d.Rekinded (d.setKind x kind) where
  size_eq := size_modify _ _ _
  node_eq y := by
    rw [Document.kind, Document.setKind]
    rcases node_modify_cases d x (fun n => { n with kind }) y with heq | ⟨-, rfl, heq⟩ <;> rw [heq]
  delimiters_eq y := by
    rw [Document.kind, Document.setKind]
    rcases node_modify_cases d x (fun n => { n with kind }) y with heq | ⟨-, rfl, heq⟩ <;> rw [heq]
    · rfl
    · exact h

section

variable (h : d.Rekinded d')
include h

theorem Rekinded.payload_eq (x : NodeId) : (d'.node x).payload = (d.node x).payload := by
  rw [h.node_eq]

theorem Rekinded.branches_eq (x : NodeId) : d'.branches x = d.branches x := by
  rw [branches, h.node_eq]
  rfl

theorem Rekinded.refs_eq : d'.refs = d.refs := by
  funext x
  rw [refs, h.node_eq]
  rfl

theorem Rekinded.plain (hp : d.Plain) : d'.Plain := fun x => by
  rw [Node.naming?, h.payload_eq]
  exact hp x

theorem Rekinded.grove (hg : d.Grove L) : d'.Grove L := by
  have hslots : d'.slots = d.slots := by rw [slots, slots, h.size_eq, h.refs_eq]
  refine ⟨by rw [hslots]; exact hg.nodup, ?_, by rw [h.refs_eq]; exact hg.grounded⟩
  rw [hslots, h.size_eq]
  exact hg.lt_size

theorem Rekinded.sourceOf_eq (hnone : ∀ x, (d.node x).payload = .none)
    (x : NodeId) : d'.sourceOf x = d.sourceOf x := by
  have key : ∀ n x, d'.writeNode Manner.source n x = d.writeNode Manner.source n x := by
    intro n
    induction n with
    | zero => exact fun _ => rfl
    | succ n ih =>
      intro x
      have hw : d'.writeNode Manner.source n = d.writeNode Manner.source n := funext ih
      simp only [writeNode, Option.getD_none]
      rw [write_of_none (hnone x), write_of_none ((h.payload_eq x).trans (hnone x)),
        h.delimiters_eq, writeBranches, writeBranches, h.branches_eq, hw]
  rw [sourceOf, render, h.size_eq]
  exact key d.size x

end

end Document

namespace Template

variable {path : String}

theorem specialize_rekinded (d : Document) : d.Rekinded (specialize d) := by
  have hkind : ∀ id ∈ d.descendants Document.root [.tag] [], d.kind id = .tag := fun id hid => by
    have := contains_iff_mem.mp (mem_filter.mp hid).2
    simpa using this
  rw [specialize]
  refine List.foldlRecOn _ _ (Rekinded.refl d) fun d' h id hid => ?_
  split
  case h_1 kind hlookup =>
    refine h.trans (.setKind ?_)
    rw [h.delimiters_eq, hkind id hid]
    obtain ⟨name, -, hlookup⟩ := Option.bind_eq_some_iff.mp hlookup
    -- every tag that stands alone is written as a tag
    have hall : ∀ p ∈ inlineTags, p.2.delimiters = Kind.tag.delimiters := by decide
    exact hall _ (mem_of_lookup hlookup)
  case h_2 => exact h

def blockKinds : List Kind := blockTags.rules.map (·.2.kind)

theorem nesting_faithful : nesting.Faithful blockKinds [.tag, .pluralTag] True where
  eligible := by decide
  marks _ := fun k hk => hk
  kind key rule h := mem_map.mpr ⟨_, mem_of_lookup h, rfl⟩
  separators _ _ _ := .inl trivial
  delimiters d id key rule hkey hrule := by
    have hkind : ∀ k ∈ nesting.eligible, k.delimiters = some ("\x7b%", "%\x7d") := by decide
    have hrules : ∀ r ∈ blockTags.rules, r.2.kind.openingDelimiters = ("\x7b%", "%\x7d") := by decide
    rw [hkind _ (Nesting.kind_eligible hkey), hrules _ (mem_of_lookup hrule)]
    rfl

/-- What reading a template gives: a document whose bodies are those of tags, and which is written
with all markers as the template. -/
structure Parsed (s : String) (d : Document) : Prop where
  grove : d.Grove [Document.root]
  plain : d.Plain
  bodied : d.Bodied blockKinds [.tag, .pluralTag]
  whole_eq : d.render Manner.whole Document.root = s

theorem parse_whole (h : parse (.ofSource path s) = .ok () d) : Parsed s d := by
  obtain ⟨_, d1, htokenize, h⟩ := bind_eq_ok.mp h
  obtain ⟨_, d2, happly, hnest⟩ := bind_eq_ok.mp h
  cases happly
  obtain ⟨hretold, hsteady⟩ := tokenize_retold htokenize
  have hnone : ∀ x, (d1.node x).payload = .none := fun x => by
    rw [hsteady.payload_eq]
    exact (node_ofSource path s x).2
  have hsingle : ∀ x, (d1.node x).branches.length = 1 := fun x =>
    hsteady.single x (length_ofSource path s x)
  have hrekinded := specialize_rekinded d1
  have hgrove := hrekinded.grove hretold.grove
  have hplain := hrekinded.plain hretold.plain
  have hnone2 : ∀ x, ((specialize d1).node x).payload = .none := fun x => by
    rw [hrekinded.payload_eq]
    exact hnone x
  have hnil : ∀ x, ((specialize d1).node x).body.markers = [] := fun x => by
    simp [Node.body, Node.body?, hnone2 x]
  have hbodied : (specialize d1).Bodied blockKinds [.tag, .pluralTag] := by
    refine ⟨fun x _ => ⟨hnone2 x, ?_⟩, fun x m hm => by rw [hnil x] at hm; cases hm⟩
    rw [hrekinded.node_eq]
    exact hsingle x
  obtain ⟨hnested, hbodied'⟩ :=
    Nesting.nest_retold nesting_faithful Manner.orderly_whole hgrove hplain hbodied hnest
  refine ⟨hnested.grove, hnested.plain, hbodied', hnested.render_eq.trans ?_⟩
  -- before nesting there are no markers that could be left out
  have hsource := (sourceOf_whole hgrove hplain hgrove.lt_head
    fun y m hm => by rw [hnil y] at hm; cases hm).2.mpr fun y _ m hm => by
      rw [hnil y] at hm
      cases hm
  rw [← hsource, hrekinded.sourceOf_eq hnone]
  exact hretold.render_eq.trans (source_ofSource path s)

theorem Parsed.marker_ne_empty (h : Parsed s d) (y : NodeId) (m : Nat × NodeId)
    (hm : m ∈ (d.node y).body.markers) : d.render Manner.whole m.2 ≠ "" := by
  have hkind := h.bodied.marker y m hm
  have hnone := (h.bodied.plain m.2 (nesting_faithful.eligible _ hkind)).1
  have hlt := h.grove.lt_of_refs (mem_refs_of_marker hm)
  have hdel : (d.kind m.2).delimiters = some ("\x7b%", "%\x7d") := by
    have hall : ∀ k ∈ [Kind.tag, .pluralTag], k.delimiters = some ("\x7b%", "%\x7d") := by decide
    exact hall _ hkind
  rw [h.grove.render_eq Manner.local_whole h.plain hlt, Manner.orderly_whole.of_none hnone,
    Option.getD_none, write_of_none hnone, hdel]
  simp [String.append_eq_empty_iff]

theorem Parsed.source_eq_iff (h : Parsed s d) : d.source = s ↔
    ∀ x, Reaches d.refs Document.root x → d.Complete x := by
  rw [← h.whole_eq]
  exact (sourceOf_whole h.grove h.plain h.grove.lt_head
    h.marker_ne_empty).2

end Template

namespace Document

variable {kinds kinds' marks : List Kind}

theorem Bodied.mono (h : d.Bodied kinds marks) (hk : kinds ⊆ kinds') : d.Bodied kinds' marks :=
  ⟨fun x hx => h.plain x fun hmem => hx (hk hmem), h.marker⟩

theorem Bodied.of_steady (h : d.Bodied kinds marks) (hg : d.Grove L) (hs : d.Steady d') :
    d'.Bodied kinds marks where
  plain x hx := by
    have hplain : (d.node x).payload = .none ∧ (d.node x).branches.length = 1 := by
      by_cases hlt : x < d.size
      · rw [hs.kind_eq x hlt] at hx
        exact h.plain x hx
      · rw [node_of_le (not_lt.mp hlt)]
        exact ⟨rfl, rfl⟩
    exact ⟨(hs.payload_eq x).trans hplain.1, hs.single x hplain.2⟩
  marker x m hm := by
    have hbody : (d'.node x).body = (d.node x).body := by
      rw [Node.body, Node.body?, hs.payload_eq]
      rfl
    rw [hbody] at hm
    rw [hs.kind_eq _ (hg.lt_of_refs (mem_refs_of_marker hm))]
    exact h.marker x m hm

end Document

namespace Markup

def blockKinds : List Kind := blocks.rules.map (·.2.kind)

def Marker.kind : Marker → Kind
  | conditional => .conditionalStart
  | endConditional => .conditionalEnd
  | opens _ => .markupTag
  | closes _ => .endTag

theorem kind_of_marker? {id : NodeId} {key : Marker} (h : marker? d id = some key) :
    d.kind id = key.kind := by
  unfold marker? at h
  split at h
  case h_1 hkind =>
    cases h
    exact hkind
  case h_2 hkind =>
    cases h
    exact hkind
  case h_3 hkind =>
    split_ifs at h
    obtain ⟨e, -, rfl⟩ := Option.map_eq_some_iff.mp h
    exact hkind
  case h_4 hkind =>
    obtain ⟨e, -, rfl⟩ := Option.map_eq_some_iff.mp h
    exact hkind
  case h_5 => cases h

theorem nesting_faithful :
    nesting.Faithful (Template.blockKinds ++ blockKinds) [.tag, .pluralTag] False where
  eligible := by decide
  marks := False.elim
  kind key rule h := mem_append_right _ (mem_map.mpr ⟨_, mem_of_lookup h, rfl⟩)
  separators key rule h := by
    have hrules : ∀ r ∈ blocks.rules, r.2.separators = [] := by decide
    exact .inr (hrules _ (mem_of_lookup h))
  delimiters d id key rule hkey hrule := by
    have hrules : ∀ r ∈ blocks.rules,
        r.2.kind.openingDelimiters = r.1.kind.delimiters.getD ("", "") := by decide
    have hclass : marker? d id = some key := by
      rw [Nesting.key?] at hkey
      split_ifs at hkey
      exact hkey
    rw [hrules _ (mem_of_lookup hrule), kind_of_marker? hclass]

theorem nest_source (h : Template.Parsed s d) (hlex : lex d = .ok () d')
    (hnest : nest d' = .ok () d'') : d''.source = d.source := by
  have hbodiless : Run.Bodiless [.content, .expanded] d := fun x hx => by
    have hall : ∀ k ∈ [Kind.content, .expanded], k ∉ Template.blockKinds := by decide
    exact (h.bodied.plain x (hall _ hx)).1
  obtain ⟨hlexed, hsteady⟩ := lex_retold h.grove h.plain hbodiless hlex
  have hbodied := (h.bodied.of_steady h.grove hsteady).mono
    (subset_append_left _ Markup.blockKinds)
  obtain ⟨hnested, -⟩ := Nesting.nest_retold nesting_faithful Manner.orderly_source hlexed.grove
    hlexed.plain hbodied hnest
  exact hnested.render_eq.trans hlexed.render_eq

end Markup

/-- **Reading and writing a template.** With all markers, the document that has been read is written
as the text of the template. Its source is that text exactly if no marker below the root is without
the branch that it starts, and the same holds after the markup has been read and nested. -/
theorem source_after_parsing_iff (path s : String) {d : Document}
    (h : Template.parse (.ofSource path s) = .ok () d) :
    d.render Manner.whole Document.root = s ∧
    (d.source = s ↔ ∀ x, Reaches d.refs Document.root x → d.Complete x) ∧
      ∀ d' d'', Markup.lex d = .ok () d' → Markup.nest d' = .ok () d'' →
        (d''.source = s ↔ ∀ x, Reaches d.refs Document.root x → d.Complete x) := by
  have hparsed := Template.parse_whole h
  refine ⟨hparsed.whole_eq, hparsed.source_eq_iff, fun d' d'' hlex hnest => ?_⟩
  rw [Markup.nest_source hparsed hlex hnest]
  exact hparsed.source_eq_iff

def alternatePage (alternate : String) : String :=
  "\x7b% if x %\x7da\x7b% else %\x7d" ++ alternate ++ "\x7b% endif %\x7d<pre>b</pre>"

/-- An alternate that is not empty is written back; of one that is empty, the marker is left out. -/
theorem source_after_parsing_alternatePage :
    (∃ d d' d'', Template.parse (.ofSource "p" (alternatePage "c")) = .ok () d ∧
      Markup.lex d = .ok () d' ∧ Markup.nest d' = .ok () d'' ∧ d''.source = alternatePage "c" ∧
      ∀ x, Reaches d.refs Document.root x → d.Complete x) ∧
    ∃ d d' d'', Template.parse (.ofSource "p" (alternatePage "")) = .ok () d ∧
      Markup.lex d = .ok () d' ∧ Markup.nest d' = .ok () d'' ∧ d.source ≠ alternatePage "" ∧
      d''.source ≠ alternatePage "" ∧ ¬∀ x, Reaches d.refs Document.root x → d.Complete x := by
  have run (alternate : String) (kept : Bool)
      (hok : succeeds (do Template.parse; let d ← get; Markup.lex; Markup.nest; return d.source)
        (.ofSource "p" (alternatePage alternate))
        (fun s _ => decide (s = alternatePage alternate) == kept) = true) :
      ∃ d d' d'', Template.parse (.ofSource "p" (alternatePage alternate)) = .ok () d ∧
        Markup.lex d = .ok () d' ∧ Markup.nest d' = .ok () d'' ∧
        decide (d.source = alternatePage alternate) = kept := by
    obtain ⟨_, _, h, hkept⟩ := of_succeeds hok
    obtain ⟨_, d, hparse, h⟩ := bind_eq_ok.mp h
    obtain ⟨_, _, hget, h⟩ := bind_eq_ok.mp h
    obtain ⟨rfl, rfl⟩ := get_eq_ok.mp hget
    obtain ⟨_, d', hlex, h⟩ := bind_eq_ok.mp h
    obtain ⟨_, d'', hnest, h⟩ := bind_eq_ok.mp h
    obtain ⟨rfl, rfl⟩ := pure_eq_ok.mp h
    exact ⟨d, d', d'', hparse, hlex, hnest, by simpa using hkept⟩
  constructor
  · obtain ⟨d, d', d'', hparse, hlex, hnest, hkept⟩ := run "c" true (by decide +kernel)
    obtain ⟨-, hiff, hiff'⟩ := source_after_parsing_iff _ _ hparse
    have hcomplete := hiff.mp (of_decide_eq_true hkept)
    exact ⟨d, d', d'', hparse, hlex, hnest, (hiff' d' d'' hlex hnest).mpr hcomplete, hcomplete⟩
  · obtain ⟨d, d', d'', hparse, hlex, hnest, hkept⟩ := run "" false (by decide +kernel)
    obtain ⟨-, hiff, hiff'⟩ := source_after_parsing_iff _ _ hparse
    have hincomplete := mt hiff.mpr (of_decide_eq_false hkept)
    exact ⟨d, d', d'', hparse, hlex, hnest, of_decide_eq_false hkept,
      mt (hiff' d' d'' hlex hnest).mp hincomplete, hincomplete⟩

end Stencil
