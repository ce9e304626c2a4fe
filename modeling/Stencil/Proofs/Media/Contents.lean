import Stencil.Markup.Bundling
import Stencil.Proofs.Digest.Stream
import Stencil.Proofs.Media.Agreement

/-!
# What a cache of media holds

Inline scripts and styles, the files of bundles and the bundles themselves are stored in one cache, each
under the key of some parts. `Made` says which content belongs to which parts. There is at most one
(`made_keyParts_iff`, `made_extension_iff`), because a source compiles to the same text wherever it
comes from (`Language.compileSource_of_path`).

With a valid cache, **what is fetched is what would be computed** (`Cache.Valid.fetch`), as long as no
two of the parts have the same key.
-/

namespace Stencil

open Document List

variable {content path source : String} {ε : Type}

theorem Language.compileSource_of_path {l : Language} (hl : l.Uniform) {compiled : String}
    (h : l.compileSource path source = .ok compiled) (path' : String) :
    l.compileSource path' source = .ok compiled := by
  -- both are compared with a region that holds the source
  obtain ⟨d, hb⟩ : ∃ d : Document, d.branches root = [[.text source]] :=
    ⟨{ nodes := #[{ kind := .root, place := .startOf path, branches := [[.text source]] }] }, rfl⟩
  have hlt := Region.lt_size_of_branches hb
  have htext : Branch.text [.text source] = source := by simp [Branch.text]
  have h1 := Region.compileInside_agree hl path hlt hb rfl
  have h2 := Region.compileInside_agree hl path' hlt hb rfl
  rw [htext] at h1 h2
  rw [h] at h1
  generalize Region.compileInside l root d = r at h1 h2
  cases h1
  generalize l.compileSource path' source = r' at h2
  cases h2
  rfl

/-- A language that media are in. A stylesheet in a file has the url of the file as its base. -/
inductive Language.Known : Language → Prop where
  | script : Known Script.language
  | inlineStyle : Known (Stylesheet.language none)
  | stylesheet {url : String} : url ≠ "" → Known (Stylesheet.language (some url))

namespace Language.Known

variable {l l' : Language} {source' : String}

theorem uniform (h : l.Known) : l.Uniform := by
  cases h with
  | script => exact Script.language_uniform
  | inlineStyle => exact Stylesheet.language_uniform none
  | stylesheet => exact Stylesheet.language_uniform _

theorem keyParts_inj (h : l.Known) (h' : l'.Known) (heq : l.keyParts source = l'.keyParts source') :
    l = l' ∧ source = source' := by
  cases h <;> cases h' <;> simp_all [Script.language, Stylesheet.language]

theorem keyParts_ne (h : l.Known) (type : Markup.MediaType) (joined : String) :
    l.keyParts source ≠ [type.extension, joined] := by
  cases h <;> cases type <;> simp [Script.language, Stylesheet.language, Markup.MediaType.extension]

end Language.Known

/-- The content that belongs to the parts of a key. -/
inductive Made : List String → String → Prop where
  /-- A source is stored as what it compiles to. -/
  | compiled {l : Language} {path source content : String} : l.Known →
      l.compileSource path source = .ok content → Made (l.keyParts source) content
  /-- Compiled files that have been joined are stored as they are. -/
  | joined (type : Markup.MediaType) (content : String) : Made [type.extension, content] content

theorem made_keyParts_iff {l : Language} (hl : l.Known) :
    Made (l.keyParts source) content ↔ l.compileSource path source = .ok content := by
  refine ⟨fun h => ?_, .compiled hl⟩
  generalize hparts : l.keyParts source = parts at h
  cases h with
  | compiled hl' hok =>
    obtain ⟨rfl, rfl⟩ := hl.keyParts_inj hl' hparts
    exact Language.compileSource_of_path hl.uniform hok path
  | joined type _ => exact absurd hparts (hl.keyParts_ne type _)

theorem made_extension_iff {type : Markup.MediaType} {joined : String} :
    Made [type.extension, joined] content ↔ content = joined := by
  refine ⟨fun h => ?_, fun h => h ▸ .joined type joined⟩
  generalize hparts : [type.extension, joined] = parts at h
  cases h with
  | compiled hl _ => exact absurd hparts.symm (hl.keyParts_ne type joined)
  | joined type' _ => simp_all

namespace Cache

variable {c : Cache} {k k' : Key} {content' : String}

def keys (c : Cache) : List Key := c.slots.map (·.1)

theorem mem_keys_iff : k ∈ c.keys ↔ (c.slots.lookup k).isSome := by
  rw [keys, mem_map, lookup_isSome_iff]
  exact exists_congr fun slot => and_congr_right fun _ => eq_comm.trans beq_iff_eq.symm

theorem mem_keys_of_get? (h : c.get? k = some content) : k ∈ c.keys := by
  rw [mem_keys_iff]
  rw [get?] at h
  cases hl : c.slots.lookup k with
  | none => rw [hl] at h; cases h
  | some v => rfl

theorem mem_keys_reserve : k' ∈ (c.reserve k).keys ↔ k' ∈ c.keys ∨ k = k' := by
  rw [reserve]
  split_ifs with h
  · exact ⟨.inl, fun h' => h'.elim id fun heq => heq ▸ mem_keys_iff.mpr h⟩
  · simp [keys, eq_comm, or_comm]

theorem get?_reserve : (c.reserve k).get? k' = c.get? k' := by
  rw [reserve]
  split_ifs with h
  · rfl
  · rw [get?, get?, lookup_cons]
    cases hk : k' == k with
    | true =>
      rw [beq_iff_eq.mp hk]
      rw [Bool.not_eq_true, Option.isSome_eq_false_iff, Option.isNone_iff_eq_none] at h
      rw [h]
      rfl
    | false => rfl

theorem keys_fill : (c.fill k content).keys = c.keys := by
  rw [keys, keys, fill, map_map]
  refine map_congr_left fun slot _ => ?_
  show Prod.fst (if slot.1 = k then _ else _) = _
  split_ifs <;> rfl

theorem get?_fill_of_ne (h : k' ≠ k) : (c.fill k content).get? k' = c.get? k' := by
  obtain ⟨slots⟩ := c
  simp only [get?, fill]
  induction slots with
  | nil => rfl
  | cons slot slots ih =>
    obtain ⟨k1, v⟩ := slot
    rw [map_cons, lookup_cons]
    by_cases hk : k1 = k
    · subst hk
      have hne : (k' == k1) = false := beq_eq_false_iff_ne.mpr h
      rw [if_pos rfl, lookup_cons, hne]
      exact ih
    · rw [if_neg hk, lookup_cons]
      cases k' == k1 with
      | true => rfl
      | false => exact ih

theorem get?_fill_self (h : (c.fill k content).get? k = some content') : content' = content := by
  obtain ⟨slots⟩ := c
  simp only [get?, fill] at h
  induction slots with
  | nil => cases h
  | cons slot slots ih =>
    obtain ⟨k1, v⟩ := slot
    rw [map_cons] at h
    by_cases hk : k1 = k
    · subst hk
      rw [if_pos rfl, lookup_cons, beq_self_eq_true] at h
      cases h
      rfl
    · have hne : (k == k1) = false := beq_eq_false_iff_ne.mpr (Ne.symm hk)
      rw [if_neg hk, lookup_cons, hne] at h
      exact ih h

theorem mem_keys_fetch {compute : Unit → Except ε String} :
    k' ∈ (c.fetch k compute).2.keys ↔ k' ∈ c.keys ∨ k = k' := by
  rw [fetch, fetchM]
  cases hget : c.get? k with
  | some content =>
    exact ⟨.inl, fun h => h.elim id fun heq => heq ▸ mem_keys_of_get? hget⟩
  | none =>
    cases compute () with
    | ok content => exact (congrArg (k' ∈ ·) keys_fill).to_iff.trans mem_keys_reserve
    | error e => exact mem_keys_reserve

/-- Each content belongs to some of the parts in `F`, and is stored under their key. -/
def Valid (F : List String → Prop) (c : Cache) : Prop :=
  ∀ k content, c.get? k = some content → ∃ parts, F parts ∧ Key.ofParts parts = k ∧
    Made parts content

variable {F : List String → Prop} {parts : List String}

theorem valid_empty : ({} : Cache).Valid F := fun _ _ h => by cases h

theorem Valid.reserve (h : c.Valid F) : (c.reserve k).Valid F := fun k' content hget =>
  h k' content (get?_reserve ▸ hget)

theorem Valid.fill (h : c.Valid F) (hF : F parts) (hmade : Made parts content) :
    (c.fill (Key.ofParts parts) content).Valid F := by
  intro k' content' hget
  by_cases hk : k' = Key.ofParts parts
  · subst hk
    rw [get?_fill_self hget]
    exact ⟨parts, hF, rfl, hmade⟩
  · exact h k' content' (get?_fill_of_ne hk ▸ hget)

theorem Valid.fetch {compute : Unit → Except ε String} (h : c.Valid F)
    (hinj : ∀ p q, F p → F q → Key.ofParts p = Key.ofParts q → p = q) (hF : F parts)
    (hmade : ∀ content, Made parts content ↔ compute () = .ok content) :
    (c.fetch (Key.ofParts parts) compute).1 = compute () ∧
      (c.fetch (Key.ofParts parts) compute).2.Valid F := by
  rw [Cache.fetch, fetchM]
  cases hget : c.get? (Key.ofParts parts) with
  | some content =>
    obtain ⟨q, hq, hkey, hcontent⟩ := h _ content hget
    rw [hinj q parts hq hF hkey, hmade] at hcontent
    exact ⟨hcontent.symm, h⟩
  | none =>
    cases hcompute : compute () with
    | ok content => exact ⟨rfl, h.reserve.fill hF ((hmade content).mpr hcompute)⟩
    | error e => exact ⟨rfl, h.reserve⟩

end Cache

end Stencil
