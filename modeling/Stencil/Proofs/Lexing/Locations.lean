import Stencil.Proofs.Lexing.Gathering
import Stencil.Proofs.Lexing.Layout
import Stencil.Proofs.Lexing.Lossless
import Stencil.Proofs.Lexing.Mirroring

/-!
# Places in one file

The tokens of a template and the tokens of its markup have exact places: **the place of a token is the
line and the column that one gets by counting through the source up to where the text of the token
starts** (`places_after_lexing`).
-/

namespace Stencil

open Document List String

variable {d : Document} {L : List NodeId} {x : NodeId} {enter : List Kind} {path s : String}

namespace Place

/-- The place behind a text at the start of a file: lines and columns are counted from one. -/
def after (path text : String) : Place where
  path := path
  line := 1 + text.toList.count '\n'
  column := 1 + (text.toList.reverse.takeWhile (· != '\n')).length

theorem after_le (path text : String) :
    (after path text).line ≤ text.length + 1 ∧ (after path text).column ≤ text.length + 1 := by
  have hline : text.toList.count '\n' ≤ text.toList.length := List.count_le_length
  have hcolumn := (List.takeWhile_prefix (l := text.toList.reverse) (· != '\n')).length_le
  rw [List.length_reverse] at hcolumn
  simp only [after, String.length_toList] at hline hcolumn ⊢
  omega

theorem advance_after (path pre : String) (text : List Char) :
    (after path pre).advance text = after path (pre ++ String.ofList text) := by
  induction text generalizing pre with
  | nil => rw [ofList_nil, append_empty]; rfl
  | cons c text ih =>
    have hnext : (after path pre).next c = after path (pre ++ String.singleton c) := by
      by_cases hc : c = '\n'
      · subst hc
        simp [next, after, Nat.add_assoc]
      · simp [next, after, hc, Nat.add_assoc]
    have hcons : String.ofList (c :: text) = String.singleton c ++ String.ofList text := by
      rw [singleton_eq_ofList, ← ofList_append]
      rfl
    rw [advance, List.foldl_cons, hnext, hcons, ← String.append_assoc]
    exact ih _

theorem advance_startOf (path : String) (text : List Char) :
    (startOf path).advance text = after path (String.ofList text) := by
  have h := advance_after path "" text
  rwa [empty_append] at h

end Place

open LexAction in
theorem Template.grammar_punctual : grammar.Punctual := by
  have hfirst : ∀ state, ∀ r ∈ rules state, startsFirst r.actions = true := by
    intro state
    cases state <;> decide
  exact fun state r hr matched s => timely_of_startsFirst (hfirst state r hr)

namespace Markup

open LexAction

theorem timely_attribute (matched : String) (s : Stacks LexState) (rest : List (LexAction LexState))
    (hrest : rest = [stop] ∨ rest = [start .attributeValue, push .attributeValue]) :
    Timely matched ([start .tagAttribute, start .attributeKey, record, shift, stop] ++ rest) "" ""
      s := by
  rcases hrest with rfl | rfl <;>
    simp [Timely, emit, starts, shifts, Kind.opener, Kind.closer, Kind.delimiters]

theorem grammar_punctual : grammar.Punctual := by
  have hrules : ∀ state, ∀ r ∈ rules state, startsFirst r.actions = true ∨
      (r.actions = [start .tagAttribute, start .attributeKey, record, shift, stop] ++ [stop] ∨
        r.actions = [start .tagAttribute, start .attributeKey, record, shift, stop] ++
          [start .attributeValue, push .attributeValue]) := by
    intro state
    cases state <;> decide
  intro state r hr matched s
  rcases hrules state r hr with h | h | h
  · exact timely_of_startsFirst h
  · rw [h]
    exact timely_attribute matched s _ (.inl rfl)
  · rw [h]
    exact timely_attribute matched s _ (.inr rfl)

end Markup

namespace Template

def layout : Layout where
  made := [.content, .tag, .tagElement, .variableTag, .variablePart, .comment, .longComment]
  outside := [.content, .tag, .variableTag, .comment, .longComment]
  inside
    | .tag => [.tagElement]
    | .variableTag => [.variablePart]
    | .longComment => [.comment]
    | _ => []

def LexState.token : LexState → Kind
  | comment => .comment
  | longComment => .longComment
  | insideTag => .tag
  | insideVariable => .variableTag
  | outside => .content

theorem grammar_arranged : grammar.Arranged knownStates layout (List.map LexState.token) where
  start := rfl
  rule := by decide

/-- The document of a template that has been split into tokens. -/
structure Tokens (d : Document) : Prop where
  root_kind : d.kind root = .root
  root_payload : (d.node root).payload = .none
  root_branches : d.branches root = [d.branch root 0]
  wordless : (d.branch root 0).Wordless
  outside : ∀ c ∈ (d.branch root 0).nodes, d.kind c ∈ layout.outside
  formed : ∀ x, 1 ≤ x → x < d.size → layout.Formed d x

theorem branch_ofSource (path s : String) :
    (ofSource path s).branch root 0 = if s = "" then [] else [.text s] := by
  rw [ofSource_eq]
  rfl

theorem tokens_of_tokenize
    (h : grammar.tokenize [] [] root (.ofSource path s) = .ok () d) : Tokens d := by
  have htok := Grammar.isTokens_of_tokenize h
  obtain ⟨b, hb, hwordless, houtside, hformed⟩ := grammar_arranged.of_completes htok.payload_eq
    (Grammar.completes_of_tokenize grammar_closed h) ⟨rfl, fun x hle hlt => absurd hlt (not_lt.mpr hle),
      fun t ht => absurd ht not_mem_nil, fun c hc => absurd hc not_mem_nil, fun s hs => absurd hs not_mem_nil⟩
  have hbranch : d.branch root 0 = b := (Node.branch_zero _).trans (children_of_branches hb)
  rw [← hbranch] at hb hwordless houtside
  exact ⟨htok.kind_eq, htok.payload_eq root, hb, hwordless, houtside, hformed⟩

namespace Tokens

theorem payload_eq (h : Tokens d) (x : NodeId) : (d.node x).payload = .none := by
  by_cases hx : x < d.size
  · rcases Nat.eq_zero_or_pos x with rfl | hpos
    · exact h.root_payload
    · exact (h.formed x hpos hx).payload_eq
  · rw [node_of_le (not_lt.mp hx)]

theorem kind_mem (h : Tokens d) (x : NodeId) : d.kind x = .root ∨ d.kind x ∈ layout.made := by
  by_cases hx : x < d.size
  · rcases Nat.eq_zero_or_pos x with rfl | hpos
    · exact .inl h.root_kind
    · exact .inr (h.formed x hpos hx).kind_mem
  · rw [kind, node_of_le (not_lt.mp hx)]
    exact .inl rfl

theorem content (h : Tokens d) (hk : d.kind x = .content) :
    d.branches x = [[]] ∨ ∃ s, s ≠ "" ∧ d.branches x = [[.text s]] := by
  have hx : x < d.size := by
    by_contra hx
    rw [kind, node_of_le (not_lt.mp hx)] at hk
    cases hk
  have hpos : 1 ≤ x := by
    rcases Nat.eq_zero_or_pos x with rfl | hpos
    · rw [h.root_kind] at hk
      cases hk
    · exact hpos
  obtain ⟨b, hb, hfills⟩ := (h.formed x hpos hx).branches_eq
  rw [hk] at hfills
  rcases hfills.alone rfl with rfl | ⟨s, hs, rfl⟩
  · exact .inl hb
  · exact .inr ⟨s, hs, hb⟩

theorem tidy (h : Tokens d) (hk : d.kind x ∈ [Kind.content, .expanded]) : (d.node x).Tidy := by
  rcases mem_cons.mp hk with hk | hk
  · rcases h.content hk with hb | ⟨s, -, hb⟩
    · refine .inr fun b hmem s hs => ?_
      rw [branches] at hb
      rw [hb, mem_singleton] at hmem
      rw [hmem] at hs
      cases hs
    · exact .inl ⟨s, hb⟩
  · have hk : d.kind x = .expanded := mem_singleton.mp hk
    rcases h.kind_mem x with h' | h' <;> rw [hk] at h' <;> exact absurd h' (by decide)

theorem not_mem_blocks (h : Tokens d) (x : NodeId) : d.kind x ∉ Kind.templateBlocks := by
  intro hmem
  rcases h.kind_mem x with hk | hk
  · rw [hk] at hmem
    exact absurd hmem (by decide)
  · revert hk hmem
    generalize d.kind x = k
    revert k
    decide

end Tokens

end Template

namespace Document

/-- The node stands in the document, its own text is part of the source, and its place is where one
gets by counting through what is in front of it. -/
structure Exact (d : Document) (path s : String) (x : NodeId) : Prop where
  stands : ∃ pre, d.Stands (d.branch root 0) pre x
  source_eq : ∀ pre, d.Stands (d.branch root 0) pre x → ∃ post, s = pre ++ d.sourceOf x ++ post
  place_eq : ∀ pre, d.Stands (d.branch root 0) pre x → d.place x = Place.after path pre
  /-- Line and column are numbers of 32 bits, unless the source is longer than these can count. -/
  fits : s.length + 1 < UInt32.size →
    (d.place x).line < UInt32.size ∧ (d.place x).column < UInt32.size

theorem exists_stands_of_encloses (hb : (d.branches root).length = 1) (h : d.Encloses root x) :
    ∃ pre, d.Stands (d.branch root 0) pre x := by
  obtain ⟨c, hc, hr⟩ := Relation.TransGen.head'_iff.mp h
  obtain ⟨i, hi, hc⟩ := exists_branch_of_mem_kids hc
  rw [hb] at hi
  obtain rfl : i = 0 := Nat.lt_one_iff.mp hi
  exact exists_stands_iff.mpr ⟨c, hc, hr⟩

theorem Grove.source_eq_text (h : d.Grove (root :: L)) (hp : d.Plain)
    (hk : d.kind root = .root) (hnone : (d.node root).payload = .none)
    (hb : (d.branches root).length = 1) : d.source = d.text (d.branch root 0) := by
  have hbranches : d.branches root = [d.branch root 0] := by
    obtain ⟨b, hb⟩ := length_eq_one_iff.mp hb
    rw [hb, branch, Node.branch]
    rw [branches] at hb
    rw [hb]
    rfl
  rw [source, h.sourceOf_eq hp h.lt_head, write_of_none hnone, hk, writeBranches, hbranches]
  simp [Kind.delimiters]

end Document

/-- New nodes have the place that counting gives. -/
def counted (since : NodeId) (path : String) : Timetable where
  since := since
  arrives pre _ p := p = Place.after path pre
  fails _ := True
  fails_of_arrives _ _ := trivial

namespace Template

theorem timed_of_tokenize (h : grammar.tokenize [] [] root (.ofSource path s) = .ok () d) :
    d.Timed (counted 1 path).arrives "" (d.branch root 0) ∧ d.place root = Place.startOf path := by
  have hnone := (node_ofSource path s root).2
  have hlead : (ofSource path s).lead root 0 = "" := by
    rw [lead_of_none hnone, ofSource_eq]
    rfl
  have hplace : (ofSource path s).place root = Place.startOf path := by
    rw [ofSource_eq]
    rfl
  have hsize : (ofSource path s).size = 1 := by rw [ofSource_eq]; rfl
  have hbegins : ∀ i < ((ofSource path s).branches root).length,
      Run.Begins (counted 1 path) [] [] (.ofSource path s) ((ofSource path s).place root)
        ("" ++ (ofSource path s).lead root i) ((ofSource path s).branch root i) := by
    intro i hi
    have hlen := length_ofSource path s root
    rw [branches, hlen] at hi
    obtain rfl : i = 0 := Nat.lt_one_iff.mp hi
    rw [hlead, hplace, branch_ofSource]
    split_ifs with hs
    · refine .inl ⟨fun s hs => (by cases hs), timed_nil, fun c hc => (by cases hc), ?_, ?_⟩
      · exact fun hm => (by cases hm)
      · exact fun hm => (by cases hm)
    · refine .inr ⟨s, rfl, fun a z _ x _ => ?_⟩
      rw [empty_append, empty_append]
      exact Place.advance_startOf path a
  have hkey := (Grammar.tokenize_timed grammar_lossless grammar_punctual (by simp)
    (grove_ofSource path s) (plain_ofSource path s)
    (fun _ hx => absurd hx not_mem_nil) (le_of_eq hsize.symm) hbegins).ok () d h
  have hdone := hkey.done 0 (by
    rw [branches, length_ofSource]
    exact Nat.one_pos)
  rw [hlead] at hdone
  exact ⟨hdone, hkey.place_eq.trans hplace⟩

end Template

namespace Markup

variable {d' : Document}

theorem path_eq_of_meets {through : List Kind} (h : ∀ x, d.kind x ∉ enter) {b : Branch}
    {path' pre : String} (hm : d.Meets through enter path b path' pre x) : path' = path := by
  induction hm with
  | node => rfl
  | through _ _ ih => exact ih
  | enter _ hk _ _ => exact absurd hk (h _)
  | skipNode _ ih => exact ih
  | skipText _ ih => exact ih

theorem timed_of_tokenize (ht : Template.Tokens d) (hg : d.Grove [root]) (hp : d.Plain)
    (hpath : (d.place root).path = path) (henter : enter ⊆ Kind.templateBlocks)
    (htimed : d.Timed (counted d.size path).arrives "" (d.branch root 0))
    (h : grammar.tokenize [.content, .expanded] enter root d = .ok () d') :
    d'.Timed (counted d.size path).arrives "" (d'.branch root 0) := by
  have hnot : ∀ x, d.kind x ∉ enter := fun x hx => ht.not_mem_blocks x (henter hx)
  have hlen : (d.branches root).length = 1 := by rw [ht.root_branches]; rfl
  have hlead : d.lead root 0 = "" := by
    rw [lead_of_none ht.root_payload, ht.root_kind]
    rfl
  have hdue : Due (counted d.size path) [.content, .expanded] enter d path ""
      (d.branch root 0) := by
    refine ⟨htimed, fun c _ y _ => ⟨ht.tidy, fun hy => absurd hy (hnot y)⟩, fun _ _ => trivial, ?_⟩
    intro path' pre s c a z hm hk hs hsplit x hx
    obtain rfl := path_eq_of_meets hnot hm
    have hplace : d.place c = Place.after path' ("" ++ pre) := htimed pre c hm.stands
    show Place.advance _ _ = _
    rw [hplace, ← Place.advance_after]
    rfl
  have hbegins : ∀ i < (d.branches root).length, Run.Begins (counted d.size path)
      [.content, .expanded] enter d (d.place root) ("" ++ d.lead root i) (d.branch root i) := by
    intro i hi
    rw [hlen] at hi
    obtain rfl : i = 0 := Nat.lt_one_iff.mp hi
    rw [hlead, empty_append]
    exact .inl ⟨ht.wordless, hpath ▸ hdue⟩
  have hkey := (Grammar.tokenize_timed grammar_lossless grammar_punctual (by decide) hg hp
    (fun x _ => ht.payload_eq x) (le_refl _) hbegins).ok () d' h
  have hdone := hkey.done 0 (by rw [hlen]; exact Nat.one_pos)
  rwa [hlead] at hdone

end Markup

section Exact

theorem Document.exact_of_timed {since : NodeId} (hg : d.Grove (root :: L))
    (hp : d.Plain) (hlen : (d.branches root).length = 1) (hsource : d.text (d.branch root 0) = s)
    (htimed : d.Timed (counted since path).arrives "" (d.branch root 0)) (h : d.Encloses root x) :
    d.Exact path s x := by
  have hpart : ∀ pre, d.Stands (d.branch root 0) pre x → ∃ post, s = pre ++ d.sourceOf x ++ post := by
    intro pre hpre
    rw [← hsource]
    exact hpre.text_eq hg hp fun c hc => hg.lt_of_refs (refs_of_mem hc)
  have hplace : ∀ pre, d.Stands (d.branch root 0) pre x → d.place x = Place.after path pre := by
    intro pre hpre
    have := htimed pre x hpre
    rwa [empty_append] at this
  obtain ⟨pre, hpre⟩ := exists_stands_of_encloses hlen h
  refine ⟨⟨pre, hpre⟩, hpart, hplace, fun hs => ?_⟩
  obtain ⟨post, rfl⟩ := hpart pre hpre
  have hline := (Place.after_le path pre).1
  have hcolumn := (Place.after_le path pre).2
  rw [hplace pre hpre]
  simp only [String.length_append] at hs
  omega

theorem Document.encloses_of_reaches (hx : x ≠ root) (hr : Reaches d.kids root x) : d.Encloses root x :=
  (Relation.reflTransGen_iff_eq_or_transGen.mp hr).resolve_left hx

theorem Template.exact_of_tokenize
    (h : Template.grammar.tokenize [] [] root (.ofSource path s) = .ok () d) (hx : x ≠ root)
    (hlt : x < d.size) : d.Exact path s x := by
  have ht := Template.tokens_of_tokenize h
  obtain ⟨hretold, -⟩ := Template.tokenize_retold h
  have hlen : (d.branches root).length = 1 := by rw [ht.root_branches]; rfl
  refine exact_of_timed hretold.grove hretold.plain hlen ?_ (timed_of_tokenize h).1
    (encloses_of_reaches hx (Grammar.reaches_of_tokenize (grove_ofSource path s) h ?_ hlt))
  · rw [← hretold.grove.source_eq_text hretold.plain ht.root_kind ht.root_payload hlen]
    exact hretold.render_eq.trans (source_ofSource path s)
  · rw [ofSource_eq]
    exact Nat.pos_of_ne_zero hx

/-- **Places are exact.** After the text of a file has been split into the tokens of the template,
each token has the place that counting lines and columns up to its own text gives. So it is after
these have been split into markup, for the new tokens and for all that is left of the old ones. Line
and column fit into 32 bits, as long as the number of characters does. -/
theorem places_after_lexing (path s : String) {d : Document}
    (h : Template.grammar.tokenize [] [] root (.ofSource path s) = .ok () d) :
    (∀ x, x ≠ root → x < d.size → d.Exact path s x) ∧
      ∀ enter ⊆ Kind.templateBlocks, ∀ d',
        Markup.grammar.tokenize [.content, .expanded] enter root d = .ok () d' →
        ∀ x, (d.size ≤ x ∧ x < d'.size) ∨ d'.Encloses root x → d'.Exact path s x := by
  refine ⟨fun x hx hlt => Template.exact_of_tokenize h hx hlt, fun enter henter d' h' x hx => ?_⟩
  have ht := Template.tokens_of_tokenize h
  obtain ⟨hretold, -⟩ := Template.tokenize_retold h
  obtain ⟨htimed, hplace⟩ := Template.timed_of_tokenize h
  have hlen : (d.branches root).length = 1 := by rw [ht.root_branches]; rfl
  have hsource : d.source = s := hretold.render_eq.trans (source_ofSource path s)
  have hlt : root < d.size := hretold.grove.lt_head
  obtain ⟨hretold', hsteady'⟩ := Grammar.tokenize_retold Markup.grammar_lossless (by decide)
    hretold.grove hretold.plain (fun x _ => ht.payload_eq x) h'
  have htimed' := Markup.timed_of_tokenize ht hretold.grove hretold.plain
    (by rw [hplace]; rfl) henter htimed h'
  have hlen' : (d'.branches root).length = 1 := hsteady'.single root hlen
  refine exact_of_timed hretold'.grove hretold'.plain hlen' ?_ htimed' ?_
  · rw [← hretold'.grove.source_eq_text hretold'.plain
      ((hsteady'.kind_eq root hlt).trans ht.root_kind)
      ((hsteady'.payload_eq root).trans ht.root_payload) hlen', ← hsource]
    exact hretold'.render_eq
  · rcases hx with ⟨hle, hx⟩ | hx
    · exact encloses_of_reaches (ne_of_gt (lt_of_lt_of_le hlt hle))
        (Grammar.reaches_of_tokenize hretold.grove h' hle hx)
    · exact hx

theorem places_after_lexing_mixedPage : ∃ d d',
    Template.grammar.tokenize [] [] root (.ofSource "p" mixedPage) = .ok () d ∧
      Markup.lex d = .ok () d' ∧ (1 < d.size ∧ d.size < d'.size) ∧
      (∀ x, x ≠ root → x < d.size → d.Exact "p" mixedPage x) ∧
      ∀ x, d.size ≤ x ∧ x < d'.size → d'.Exact "p" mixedPage x := by
  have hok : succeeds (do
        Template.grammar.tokenize [] [] root
        let size := (← get).size
        Markup.lex
        return size) (.ofSource "p" mixedPage)
      (fun size d' => decide (1 < size ∧ size < d'.size)) = true := by decide +kernel
  obtain ⟨size, d', h, hsize⟩ := of_succeeds hok
  obtain ⟨_, d, htokenize, h⟩ := bind_eq_ok.mp h
  obtain ⟨_, _, hget, h⟩ := bind_eq_ok.mp h
  obtain ⟨rfl, rfl⟩ := get_eq_ok.mp hget
  obtain ⟨_, d1, hlex, h⟩ := bind_eq_ok.mp h
  obtain ⟨rfl, rfl⟩ := pure_eq_ok.mp h
  obtain ⟨htemplate, hmarkup⟩ := places_after_lexing "p" mixedPage htokenize
  refine ⟨d, d1, htokenize, hlex, of_decide_eq_true hsize, htemplate, fun x hx => ?_⟩
  exact hmarkup Kind.templateBlocks (List.Subset.refl _) d1 hlex x (.inl hx)

end Exact

end Stencil
