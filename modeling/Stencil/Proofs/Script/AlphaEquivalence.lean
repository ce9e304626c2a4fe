import Stencil.Proofs.Script.NewNames
import Stencil.Proofs.Script.Separation

/-!
# Renaming keeps what names stand for

A renamed script is read again: spell every identifier by the name it is written under after the
renaming (`respelled`), and look for declarations and references once more. The same nodes are declared
in the same scopes, every reference stands for the same declaration, and the same names are free; the
new names capture nothing; and what is written for the script is the respelled script, with a space in
front of the content of some scopes (**`minify_alphaEquivalent`**).
-/

namespace Stencil

open List

variable {a' b' : Document} {t : NodeId} {name : String}

/-- The node with another text, if it is an identifier and has a new name. -/
def Node.spell (name : Option String) (n : Node) : Node :=
  if n.kind = .identifier then
    match name with
    | some name => { n with branches := [[.text name]], payload := .none }
    | none => n
  else n

namespace Script

open Document

/-- The document with every identifier spelled by the name it is written under in a second
document. -/
def respelled (d d' : Document) : Document where
  nodes := d.nodes.mapIdx fun id n => n.spell (newName d' id)

variable {d d' : Document} {ds : List Declaration} {script x : NodeId}

@[simp] theorem size_respelled (d d' : Document) : (respelled d d').size = d.size := by
  simp [respelled, size]

theorem node_respelled (d d' : Document) (x : NodeId) :
    (respelled d d').node x = (d.node x).spell (newName d' x) := by
  simp only [respelled, node, Array.getElem?_mapIdx]
  cases d.nodes[x]? with
  | none => rfl
  | some n => rfl

theorem spell_of_ne {n : Node} (h : n.kind ≠ .identifier) (name : Option String) : n.spell name = n :=
  if_neg h

theorem spell_none (n : Node) : n.spell none = n :=
  ite_self n

theorem below_congr (h : ∀ x, d'.branches x = d.branches x) (enter : NodeId → Bool) (levels : Nat)
    (id : NodeId) : d'.below enter levels id = d.below enter levels id := by
  induction levels generalizing id with
  | zero => rfl
  | succ levels ih => simp only [Document.below, h, ih]

theorem renamingsBelow_congr (h : ∀ x, d'.branches x = d.branches x) (levels : Nat)
    (taken : List String) (id : NodeId) :
    renamingsBelow d' ds script levels taken id = renamingsBelow d ds script levels taken id := by
  induction levels generalizing taken id with
  | zero => rfl
  | succ levels ih =>
    simp only [renamingsBelow, h]
    congr 2
    funext c
    exact ih _ c

theorem minify_eq_ok {report : Report} (h : minify script d = .ok report d') :
    ∃ ds, declarations d script = .ok ds ∧
      report.renamed = renamingsOf d ds script (freeOf d ds script) ∧
      d' = separateBraces (newScript d ds script) script := by
  rw [minify, get_bind] at h
  cases hd : declarations d script with
  | error e =>
    rw [hd] at h
    cases h
  | ok ds =>
    rw [hd] at h
    have hsize : (follow (linksOf d ds script) d).size = d.size := by
      rw [follow_eq_touch, size_touch]
    have hbranches : ∀ x, (follow (linksOf d ds script) d).branches x = d.branches x := fun x => by
      rw [follow_eq_touch]
      exact touch_frame Node.branches fun _ _ => rfl
    have hren : renamingsBelow (follow (linksOf d ds script) d) ds script
        (follow (linksOf d ds script) d).size (freeOf d ds script) script =
        renamingsOf d ds script (freeOf d ds script) := by
      rw [renamingsBelow_congr hbranches, hsize]
    cases h
    refine ⟨ds, rfl, hren, ?_⟩
    rw [newScript, ← hren]

/-! ### The respelled script -/

theorem kind_spell (n : Node) (name : Option String) : (n.spell name).kind = n.kind := by
  unfold Node.spell
  split_ifs with h
  · cases name <;> rfl
  · rfl

theorem sameTokens_respelled (d d' : Document) : SameTokens d (respelled d d') where
  size_eq := size_respelled d d'
  kind_eq x := by rw [kind, node_respelled, kind_spell]; rfl
  node_eq x hk := by rw [node_respelled, spell_of_ne hk]

theorem respelled_of_none (h : newName d' x = none) : (respelled d d').node x = d.node x := by
  rw [node_respelled, h, spell_none]

theorem node_respelled_of_some (hk : d.kind x = .identifier)
    (h : newName d' x = some name) : (respelled d d').node x =
      { d.node x with branches := [[.text name]], payload := .none } := by
  rw [node_respelled, h]
  exact if_pos hk

theorem ownText_respelled (hk : d.kind x = .identifier)
    (h : newName d' x = some name) : (respelled d d').ownText x = name := by
  rw [ownText, children, node_respelled_of_some hk h]
  simp [Node.children, Branch.text]

theorem respelled_congr {d'' : Document} (h : ∀ x < d.size, newName d' x = newName d'' x) :
    respelled d d' = respelled d d'' := by
  simp only [respelled, mk.injEq]
  refine Array.ext (by simp) fun i hi _ => ?_
  simp only [Array.getElem_mapIdx]
  rw [h i (by simpa [size] using hi)]

section Binding

variable (hds : declarations d script = .ok ds) (hu : d.UniqueOwner script)
  (hn : ∀ x, Reaches d.refs script x → (d.node x).naming? = none)
include hds hu hn

theorem ownText_declared {e : Declaration} (he : e ∈ ds) :
    ∃ r ∈ renamingsOf d ds script (freeOf d ds script), r.declaration.scope = e.scope ∧
      r.declaration.name = e.name ∧
      (respelled d (newScript d ds script)).ownText e.node = r.short := by
  obtain ⟨r, hr, hs, hname, hnew⟩ := newName_declared hds hu hn he
  exact ⟨r, hr, hs, hname, ownText_respelled (located_of_mem hds he).kind_eq hnew⟩

theorem apart_respelled :
    Apart d (respelled d (newScript d ds script)) ds (freeOf d ds script) where
  eq_iff e he f hf hscope := by
    obtain ⟨r, hr, hs, hname, hrt⟩ := ownText_declared hds hu hn he
    obtain ⟨r', hr', hs', hname', hrt'⟩ := ownText_declared hds hu hn hf
    have hss : r.declaration.scope = r'.declaration.scope := by rw [hs, hs', hscope]
    rw [hrt, hrt', ← hname, ← hname']
    constructor
    · intro hshort
      rw [eq_of_short_eq hu hr hr' hss hshort]
    · -- of one name in one scope one declaration counts
      intro heq
      obtain ⟨-, -, -, hc⟩ := exists_visit hr
      obtain ⟨-, -, -, hc'⟩ := exists_visit hr'
      have hfirst := (mem_namesOf.mp hc).2.2
      rw [hss, heq, (mem_namesOf.mp hc').2.2, Option.some_inj] at hfirst
      rw [eq_of_node_eq hu (declarations_nodup hu hds) hr hr' (by rw [hfirst])]
  ne_of_encloses e he f hf hin := by
    obtain ⟨r, hr, hs, -, hrt⟩ := ownText_declared hds hu hn he
    obtain ⟨r', hr', hs', -, hrt'⟩ := ownText_declared hds hu hn hf
    rw [hrt, hrt']
    exact short_ne_of_encloses hu hr hr' (by rw [hs, hs']; exact hin)
  not_free e he := by
    obtain ⟨r, hr, -, -, hrt⟩ := ownText_declared hds hu hn he
    rw [hrt]
    exact short_not_free hr

omit hds hu hn in
theorem scopes_pairwise {s : Site} (hs : s ∈ sites d ds script) :
    s.scopes.Pairwise fun a b => d.Encloses b a := by
  obtain ⟨inner, heq, hpair, hin⟩ := (located_of_site hs).nested
  rw [heq]
  refine pairwise_append.mpr ⟨hpair, pairwise_singleton _ _, fun a ha b hb => ?_⟩
  rw [mem_singleton.mp hb]
  exact hin a ha

theorem reference_respelled {s : Site} (hs : s ∈ sites d ds script) :
    (s.reference (respelled d (newScript d ds script))
        (respell (respelled d (newScript d ds script)) ds)).target =
      (s.reference d ds).target ∧
    ((s.reference d ds).target = none →
      (respelled d (newScript d ds script)).ownText s.node = d.ownText s.node) := by
  have hapart := apart_respelled hds hu hn
  have hloc := located_of_site hs
  simp only [Site.reference]
  cases hr : resolve? ds s.scopes (d.ownText s.node) with
  | some target =>
    refine ⟨?_, fun h => by cases h⟩
    obtain ⟨⟨e, he, -, rfl⟩, hres⟩ := hapart.resolve?_respell (scopes_pairwise hs) hr
    obtain ⟨r, hr', -, -, hnew⟩ := newName_declared hds hu hn he
    have hlink : newName (newScript d ds script) s.node = some r.short := by
      rw [newName_of_link hds hu hn (mem_append_right _ (mem_links.mpr ⟨s, hs, rfl, hr⟩)), hnew]
    rw [ownText_respelled hloc.kind_eq hlink,
      ← ownText_respelled (located_of_mem hds he).kind_eq hnew, hres]
  | none =>
    have hothers : newName (newScript d ds script) s.node = none := by
      exact newName_other hn (reaches_of_enc (encloses_site hs)) hloc.not_declared
        (site_not_mem_linksOf hu hs hr)
    have htext : (respelled d (newScript d ds script)).ownText s.node = d.ownText s.node := by
      rw [ownText, children, respelled_of_none hothers]
      rfl
    refine ⟨?_, fun _ => htext⟩
    rw [htext]
    exact hapart.resolve?_respell_eq_none _ (mem_freeOf hs hr)

theorem newName_script : newName (newScript d ds script) script = none :=
  newName_other hn .refl (script_not_renamed hds hu).1 (script_not_renamed hds hu).2

theorem sites_respelled : sites (respelled d (newScript d ds script))
    (respell (respelled d (newScript d ds script)) ds) script = sites d ds script := by
  refine (sameTokens_respelled _ _).sites_respell ?_
  rw [branches, respelled_of_none (newName_script hds hu hn)]
  rfl

theorem links_respelled : links (references (respelled d (newScript d ds script))
    (respell (respelled d (newScript d ds script)) ds) script) =
      links (references d ds script) := by
  rw [links, links, references_eq_sites, references_eq_sites, sites_respelled hds hu hn,
    filterMap_map, filterMap_map]
  refine filterMap_congr fun s hs => ?_
  simp only [Function.comp_apply, (reference_respelled hds hu hn hs).1]
  rfl

theorem freeNames_respelled : freeNames (references (respelled d (newScript d ds script))
    (respell (respelled d (newScript d ds script)) ds) script) =
      freeNames (references d ds script) := by
  rw [freeNames, freeNames, references_eq_sites, references_eq_sites, sites_respelled hds hu hn,
    filter_map, filter_map, map_map, map_map]
  congr 1
  have hfilter : (sites d ds script).filter ((·.target.isNone) ∘ Site.reference
      (respelled d (newScript d ds script))
      (respell (respelled d (newScript d ds script)) ds)) =
      (sites d ds script).filter ((·.target.isNone) ∘ Site.reference d ds) :=
    filter_congr fun s hs => by
      simp only [Function.comp_apply, (reference_respelled hds hu hn hs).1]
  rw [hfilter]
  refine map_congr_left fun s hs => ?_
  obtain ⟨hs, hnone⟩ := mem_filter.mp hs
  exact (reference_respelled hds hu hn hs).2 (Option.isNone_iff_eq_none.mp hnone)

/-! ### What is written -/

omit hn in
theorem role_cases (x : NodeId) :
    (∃ r ∈ renamingsOf d ds script (freeOf d ds script), r.declaration.node = x) ∨
      (∃ t, (x, t) ∈ linksOf d ds script) ∨
      (x ∉ ds.map (·.node) ∧ x ∉ (linksOf d ds script).map Prod.fst) := by
  by_cases hl : x ∈ (linksOf d ds script).map Prod.fst
  · obtain ⟨⟨x', t⟩, hmem, rfl⟩ := mem_map.mp hl
    exact .inr (.inl ⟨t, hmem⟩)
  by_cases hd : x ∈ ds.map (·.node)
  · obtain ⟨e, he, rfl⟩ := mem_map.mp hd
    obtain ⟨f, hf⟩ := exists_declarationOf? he
    by_cases hfe : f = e
    · subst hfe
      obtain ⟨r, hr, hre⟩ := exists_renaming hu (freeOf d ds script)
        (counts_of_declarationOf? hf) (encloses_scope hds he)
      exact .inl ⟨r, hr, by rw [hre]⟩
    · exact .inr (.inl ⟨f.node, mem_append_left _ (mem_repetitions.mpr
        ⟨e, he, f, hfe, rfl, rfl, hf⟩)⟩)
  · exact .inr (.inr ⟨hd, hl⟩)

omit hu hn in
theorem kind_of_mem_linksOf (h : (x, t) ∈ linksOf d ds script) : d.kind x = .identifier := by
  rcases mem_append.mp h with h | h
  · obtain ⟨e, he, -, -, rfl, -, -⟩ := mem_repetitions.mp h
    exact (located_of_mem hds he).kind_eq
  · obtain ⟨s, hs, rfl, -⟩ := mem_links.mp h
    exact (located_of_site hs).kind_eq

omit hds hn in
theorem lt_newScript (hx : Reaches d.refs script x) : x < (newScript d ds script).size := by
  rw [size_newScript]
  exact hu.lt_size hx

omit hds hu hn in
theorem kind_newScript (x : NodeId) : (newScript d ds script).kind x = d.kind x :=
  renamedScript_frame Node.kind fun _ _ => rfl

omit hu hn in
theorem located_of_renaming {r : Renaming} (hr : r ∈ renamingsOf d ds script (freeOf d ds script)) :
    Reaches d.refs script r.declaration.node ∧ d.kind r.declaration.node = .identifier := by
  obtain ⟨-, -, -, he⟩ := exists_visit hr
  have hmem := (mem_namesOf.mp he).1
  exact ⟨reaches_of_enc (encloses_node hds hmem), (located_of_mem hds hmem).kind_eq⟩

section Twins

variable (hsep : Separated (newScript d ds script)
  (respelled d (newScript d ds script)) a' b')
include hsep

omit hds hn in
theorem eq_of_identifier (hx : Reaches d.refs script x) (hk : d.kind x = .identifier) :
    a'.node x = (newScript d ds script).node x ∧
      b'.node x = (respelled d (newScript d ds script)).node x :=
  hsep.other x (lt_newScript hu hx) (by rw [kind_newScript, hk]; decide)

omit hds hn in
theorem isText_of_newName (hx : Reaches d.refs script x)
    (hk : d.kind x = .identifier) (h : newName (newScript d ds script) x = some name) :
    IsText (b'.node x) name := by
  rw [(eq_of_identifier hu hsep hx hk).2, node_respelled_of_some hk h]
  refine ⟨?_, rfl, rfl⟩
  show (d.kind x).delimiters = none
  rw [hk]
  rfl

theorem rename_of_renaming {r : Renaming} (hr : r ∈ renamingsOf d ds script (freeOf d ds script)) :
    a'.kind r.declaration.node = .identifier ∧
      (a'.node r.declaration.node).naming.rename = some r.short := by
  obtain ⟨hreached, hk⟩ := located_of_renaming hds hr
  rw [kind, (eq_of_identifier hu hsep hreached hk).1, newScript_of_mem hds hu hn hr]
  exact ⟨hk, rfl⟩

theorem twin_of_link (hl : (x, t) ∈ linksOf d ds script) :
    Twin d a' b' (IsNew (newScript d ds script) a') x := by
  have hx := reaches_of_enc (encloses_of_mem_linksOf hds hl)
  have hk := kind_of_mem_linksOf hds hl
  have hnode : a'.node x = { d.node x with payload := .naming { target := some t } } := by
    rw [(eq_of_identifier hu hsep hx hk).1, newScript_of_link hds hu hn hl]
  obtain ⟨f, hf, rfl⟩ := exists_target hl
  obtain ⟨r, hr, rfl⟩ := exists_renaming hu (freeOf d ds script) hf
    (encloses_scope hds (mem_namesOf.mp hf).1)
  obtain ⟨hkt, hrt⟩ := rename_of_renaming hds hu hn hsep hr
  refine .linked (by rw [hnode]) ?_ hkt hrt ?_ (isText_of_newName hu hsep hx hk
    (by rw [newName_of_link hds hu hn hl, newName_of_mem hds hu hn hr]))
  · rintro rfl
    exact not_mem_linksOf hds hu hf (mem_map_of_mem hl)
  · -- a naming takes the place of a body
    rw [refs, hnode]
    intro c hc
    refine Node.mem_references.mpr ?_
    rcases Node.mem_references.mp hc with hc | hc | hc | hc
    · cases hc
    · cases hc
    · exact .inr (.inr (.inl hc))
    · cases hc

omit hds in
theorem twin_of_other (hx : Reaches d.refs script x) (hd : x ∉ ds.map (·.node))
    (hl : x ∉ (linksOf d ds script).map Prod.fst) :
    Twin d a' b' (IsNew (newScript d ds script) a') x := by
  have hlt : x < (newScript d ds script).size := lt_newScript hu hx
  have ha : (newScript d ds script).node x = d.node x := newScript_of_not_mem hd hl
  have hb : (respelled d (newScript d ds script)).node x = d.node x :=
    respelled_of_none (newName_other hn hx hd hl)
  have hrefs : b'.refs x = d.refs x := by rw [hsep.refs_eq, refs, hb]; rfl
  by_cases hk : d.kind x = .scope
  · have hpad := hsep.scope x hlt (by rw [kind_newScript, hk])
    refine .padded hpad hrefs ?_
    rw [Node.naming?, hpad.payload_eq, hsep.payload_eq x hlt, ha]
    exact hn x hx
  · obtain ⟨ha', hb'⟩ := hsep.other x hlt (by rw [kind_newScript]; exact hk)
    refine .padded ?_ hrefs ?_
    · rw [ha', hb', ha, hb]
      exact .refl _ _
    · rw [hb', hb]
      exact hn x hx

theorem twin_of_separated (hx : Reaches d.refs script x) :
    Twin d a' b' (IsNew (newScript d ds script) a') x := by
  rcases role_cases hds hu x with ⟨r, hr, rfl⟩ | ⟨t, hl⟩ | ⟨hd, hl⟩
  · obtain ⟨hreached, hk⟩ := located_of_renaming hds hr
    obtain ⟨hk', hr'⟩ := rename_of_renaming hds hu hn hsep hr
    exact .renamed hk' hr' (isText_of_newName hu hsep hreached hk (newName_of_mem hds hu hn hr))
  · exact twin_of_link hds hu hn hsep hl
  · exact twin_of_other hu hn hsep hx hd hl

end Twins

end Binding

/-! ### The minified script -/

theorem newName_separateBraces {a b : Document} (h : Separated a b a' b') (x : NodeId) :
    newName a' x = newName a x := by
  have hnaming : ∀ y, (a'.node y).naming = (a.node y).naming := by
    intro y
    by_cases hy : y < a.size
    · rw [Node.naming, Node.naming, Node.naming?, Node.naming?, h.payload_eq y hy]
    · have hy := not_lt.mp hy
      rw [node_of_le hy]
      by_cases hy' : y < a'.size
      · rw [Node.naming, Node.naming?, (h.space y ⟨hy, hy'⟩).payload_eq]
        rfl
      · rw [node_of_le (not_lt.mp hy')]
  simp only [newName, hnaming]

/-- Two scripts with the declarations found in them have the same declarations at the same nodes,
and every name in them stands for the same declaration or is free in both. -/
structure SameBinding (d d' : Document) (script : NodeId) (ds ds' : List Declaration) : Prop where
  declared : ds'.map (fun e => (e.scope, e.node)) = ds.map (fun e => (e.scope, e.node))
  counted : ∀ scope, (namesOf ds' scope).map (·.node) = (namesOf ds scope).map (·.node)
  repeated : repetitions ds' = repetitions ds
  linked : links (references d' ds' script) = links (references d ds script)
  free : freeNames (references d' ds' script) = freeNames (references d ds script)

/-- The new names of some declarations are no reserved words and no free names, and differ within a
scope and from those of the scopes around it. -/
structure CaptureFree (d : Document) (free : List String) (renamed : List Renaming) : Prop where
  not_reserved : ∀ r ∈ renamed, ShortName.isReserved r.short = false
  not_free : ∀ r ∈ renamed, r.short ∉ free
  distinct : ∀ r ∈ renamed, ∀ r' ∈ renamed, r.declaration.scope = r'.declaration.scope →
    r.declaration.name ≠ r'.declaration.name → r.short ≠ r'.short
  not_visible : ∀ r ∈ renamed, ∀ r' ∈ renamed,
    d.Encloses r.declaration.scope r'.declaration.scope → r.short ≠ r'.short

theorem sameBinding_respelled (hds : declarations d script = .ok ds) (hu : d.UniqueOwner script)
    (hn : ∀ x, Reaches d.refs script x → (d.node x).naming? = none) :
    SameBinding d (respelled d (newScript d ds script)) script ds
      (respell (respelled d (newScript d ds script)) ds) where
  declared := by rw [respell, map_map]; rfl
  counted scope := by
    rw [(apart_respelled hds hu hn).namesOf_respell, respell, map_map]
    rfl
  repeated := (apart_respelled hds hu hn).repetitions_respell
  linked := links_respelled hds hu hn
  free := freeNames_respelled hds hu hn

theorem captureFree_renamings (hu : d.UniqueOwner script) (free : List String) :
    CaptureFree d free (renamingsOf d ds script free) where
  not_reserved _ hr := short_not_reserved hr
  not_free _ hr := short_not_free hr
  distinct r hr r' hr' hs hne heq := hne (by rw [eq_of_short_eq hu hr hr' hs heq])
  not_visible _ hr _ hr' hin := short_ne_of_encloses hu hr hr' hin

theorem scopes_newScript : (newScript d ds script).descendants script [.scope] [] =
    d.descendants script [.scope] [] := by
  simp only [descendants, walk, size_newScript, hasKind, kind_newScript]
  rw [below_congr fun x => renamedScript_frame Node.branches fun _ _ => rfl]

theorem node_respelled_of_scope (hds : declarations d script = .ok ds) (hu : d.UniqueOwner script)
    (hk : (newScript d ds script).kind x = .scope) :
    (respelled d (newScript d ds script)).node x = (newScript d ds script).node x := by
  rw [kind_newScript] at hk
  have hne : d.kind x ≠ .identifier := by rw [hk]; decide
  rcases role_cases hds hu x with ⟨r, hr, rfl⟩ | ⟨t, hl⟩ | ⟨hd, hl⟩
  · exact absurd (located_of_renaming hds hr).2 hne
  · exact absurd (kind_of_mem_linksOf hds hl) hne
  · rw [(sameTokens_respelled _ _).node_eq x hne, newScript_of_not_mem hd hl]

theorem exists_sourceOf_eq (hds : declarations d script = .ok ds) (hu : d.UniqueOwner script)
    (hn : ∀ x, Reaches d.refs script x → (d.node x).naming? = none) :
    ∃ spaced, spaced.Sublist (d.descendants script [.scope] []) ∧
      Separated (newScript d ds script) (respelled d (newScript d ds script))
        (separateBraces (newScript d ds script) script)
        (openWithSpace spaced (respelled d (newScript d ds script))) ∧
      (separateBraces (newScript d ds script) script).sourceOf script =
        (openWithSpace spaced (respelled d (newScript d ds script))).sourceOf script := by
  have hlt : ∀ s ∈ d.descendants script [.scope] [], s < d.size := fun s hs =>
    hu.lt_size (reaches_of_enc (encloses_of_below (mem_filter.mp hs).1))
  obtain ⟨spaced, hsub, hsep⟩ := exists_separated script
    (by rw [size_respelled, size_newScript]) (fun s hs => by
      rw [size_newScript]
      exact hlt s (scopes_newScript ▸ hs)) fun x hk => node_respelled_of_scope hds hu hk
  refine ⟨spaced, scopes_newScript ▸ hsub, hsep, ?_⟩
  refine sourceOf_eq_of_twin (fun x hx => twin_of_separated hds hu hn hsep hx) hsep.space
    (fun x hx => lt_of_lt_of_le (lt_newScript hu hx) hsep.size_le) (fun x hx => ?_)
    .refl hu.shallow
  rw [hsep.size_eq, size_respelled]
  exact hu.lt_size hx

/-- Renaming a script keeps what its names stand for. Read again with the names it is written with,
the script has the same declarations, references and free names; the new names capture nothing; and
apart from spaces in front of the content of scopes, what was not declared or referred to is written
as it was. -/
theorem minify_alphaEquivalent {report : Report} (hu : d.UniqueOwner script)
    (hn : ∀ x, Reaches d.refs script x → (d.node x).naming? = none)
    (h : minify script d = .ok report d') :
    ∃ ds ds', declarations d script = .ok ds ∧ declarations (respelled d d') script = .ok ds' ∧
      SameBinding d (respelled d d') script ds ds' ∧
      CaptureFree d (freeNames (references d ds script)) report.renamed ∧
      (∀ e ∈ ds, ∃ r ∈ report.renamed, r.declaration.scope = e.scope ∧
        r.declaration.name = e.name ∧ (respelled d d').ownText e.node = r.short) ∧
      (∀ x, Reaches d.refs script x → x ∉ ds.map (·.node) →
        x ∉ (links (references d ds script)).map Prod.fst → (respelled d d').node x = d.node x) ∧
      ∃ spaced, spaced.Sublist (d.descendants script [.scope] []) ∧
        d'.sourceOf script = (openWithSpace spaced (respelled d d')).sourceOf script := by
  obtain ⟨ds, hds, hren, rfl⟩ := minify_eq_ok h
  obtain ⟨spaced, hsub, hsep, hsource⟩ := exists_sourceOf_eq hds hu hn
  rw [respelled_congr fun x _ => newName_separateBraces hsep x, hren]
  have hscript : (respelled d (newScript d ds script)).branches script = d.branches script := by
    rw [branches, respelled_of_none (newName_script hds hu hn)]
    rfl
  refine ⟨ds, _, hds, (sameTokens_respelled _ _).declarations_respell hscript hds,
    sameBinding_respelled hds hu hn, captureFree_renamings hu _,
    fun e he => ownText_declared hds hu hn he, fun x hx hd hl => ?_, spaced, hsub, hsource⟩
  refine respelled_of_none (newName_other hn hx hd fun hmem => ?_)
  obtain ⟨⟨x, t⟩, hlink, rfl⟩ := List.mem_map.mp hmem
  rcases List.mem_append.mp hlink with hlink | hlink
  · obtain ⟨e, he, -, -, hx, -, -⟩ := mem_repetitions.mp hlink
    exact hd (hx ▸ List.mem_map_of_mem he)
  · exact hl (List.mem_map_of_mem hlink)

/-- A script with two nested scopes, the inner one using a name of the outer one, which uses a free
name: `{var long=free;{var next=long}}`. -/
def nestedScript : Document where
  nodes := #[
    leaf .root [.node 1],
    leaf .scope [.node 2, .node 3, .node 4, .node 5, .node 6, .node 7, .node 8],
    leaf .keyword [.text "var"], leaf .scriptSpace [.text " "], leaf .identifier [.text "long"],
    leaf .operator [.text "="], leaf .identifier [.text "free"], leaf .operator [.text ";"],
    leaf .scope [.node 9, .node 10, .node 11, .node 12, .node 13],
    leaf .keyword [.text "var"], leaf .scriptSpace [.text " "], leaf .identifier [.text "next"],
    leaf .operator [.text "="], leaf .identifier [.text "long"]]
where
  leaf (kind : Kind) (b : Branch) : Node := { kind, place := Place.startOf "a.js", branches := [b] }

theorem uniqueOwner_nestedScript : nestedScript.UniqueOwner 0 :=
  .of_slots (by decide) (by decide) (by decide) (by decide)

theorem naming?_nestedScript (x : NodeId) : (nestedScript.node x).naming? = none := by
  by_cases hx : x < nestedScript.size
  · have h : ∀ x : Fin nestedScript.size, (nestedScript.node x).naming? = none := by decide
    exact h ⟨x, hx⟩
  · rw [node_of_le (not_lt.mp hx)]
    rfl

theorem minify_alphaEquivalent_nestedScript : nestedScript.UniqueOwner 0 ∧
    ∃ report d' ds ds', minify 0 nestedScript = .ok report d' ∧
      declarations nestedScript 0 = .ok ds ∧ declarations (respelled nestedScript d') 0 = .ok ds' ∧
      SameBinding nestedScript (respelled nestedScript d') 0 ds ds' ∧
      CaptureFree nestedScript (freeNames (references nestedScript ds 0)) report.renamed := by
  obtain ⟨report, d', h⟩ : ∃ report d', minify 0 nestedScript = .ok report d' := ⟨_, _, rfl⟩
  obtain ⟨ds, ds', hds, hds', hsame, hfree, -⟩ :=
    minify_alphaEquivalent uniqueOwner_nestedScript (fun x _ => naming?_nestedScript x) h
  exact ⟨uniqueOwner_nestedScript, report, d', ds, ds', h, hds, hds', hsame, hfree⟩

end Script

end Stencil
