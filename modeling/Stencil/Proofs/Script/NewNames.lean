import Stencil.Proofs.Script.Capture

/-!
# The names that identifiers end up with

After a script is renamed an identifier carries a new name, or follows another identifier that does,
or neither (`newName`). This module says which is which: every declared identifier and every
reference to one has a new name, that of the declaration it belongs to (`newName_declared`,
`newName_linked`), and no other identifier has one (`newName_other`).
-/

namespace Stencil

open List

variable {d : Document} {x : NodeId} {name : String} {β : Type}

namespace Document

variable {α : Type}

def touch (owner : α → NodeId) (f : α → Naming → Naming) (l : List α) (d : Document) : Document :=
  l.foldl (fun d a => d.modifyNaming (owner a) (f a)) d

variable {owner : α → NodeId} {f : α → Naming → Naming} {l : List α}

@[simp] theorem size_touch (owner : α → NodeId) (f : α → Naming → Naming) (l : List α)
    (d : Document) : (touch owner f l d).size = d.size := by
  induction l generalizing d with
  | nil => rfl
  | cons a l ih => exact (ih _).trans (size_modify _ _ _)

theorem touch_frame (g : Node → β) (hg : ∀ n p, g { n with payload := p } = g n) :
    g ((touch owner f l d).node x) = g (d.node x) := by
  induction l generalizing d with
  | nil => rfl
  | cons a l ih =>
    rw [touch, foldl_cons]
    exact ih.trans (modify_of_eq g (hg _ _))

theorem node_touch_of_not_mem (h : x ∉ l.map owner) : (touch owner f l d).node x = d.node x := by
  induction l generalizing d with
  | nil => rfl
  | cons a l ih =>
    simp only [map_cons, mem_cons, not_or] at h
    rw [touch, foldl_cons]
    exact (ih h.2).trans (modify_ne h.1)

theorem node_touch_of_mem {g : Naming → Naming} (hx : x < d.size) (hmem : x ∈ l.map owner)
    (hg : ∀ a ∈ l, owner a = x → f a = g) (hidem : ∀ m, g (g m) = g m) :
    (touch owner f l d).node x = { d.node x with payload := .naming (g (d.node x).naming) } := by
  induction l generalizing d with
  | nil => cases hmem
  | cons a l ih =>
    obtain ⟨ha, hl⟩ := forall_mem_cons.mp hg
    rw [touch, foldl_cons]
    by_cases hrest : x ∈ l.map owner
    · refine (ih (by rw [modifyNaming, size_modify]; exact hx) hrest hl).trans ?_
      by_cases hax : owner a = x
      · rw [modifyNaming, ← hax, modify_self (hax ▸ hx), ha hax]
        simp only [Node.naming, Node.naming?, Option.getD_some, hidem]
      · rw [modifyNaming, modify_ne (Ne.symm hax)]
    · have hax : owner a = x := by
        rcases mem_cons.mp hmem with h | h
        · exact h.symm
        · exact absurd h hrest
      refine (node_touch_of_not_mem hrest).trans ?_
      rw [modifyNaming, ← hax, modify_self (hax ▸ hx), ha hax]

end Document

namespace Script

open Document

variable {ds : List Declaration} {script t : NodeId}

theorem follow_eq_touch (links : List (NodeId × NodeId)) (d : Document) :
    follow links d = touch Prod.fst (fun l m => { m with target := some l.2 }) links d := rfl

theorem rename_eq_touch (renamings : List Renaming) (d : Document) : rename renamings d =
    touch (·.declaration.node) (fun r m => { m with rename := some r.short }) renamings d := rfl

theorem mem_repetitions : (x, t) ∈ repetitions ds ↔ ∃ e ∈ ds, ∃ f, f ≠ e ∧ x = e.node ∧
    t = f.node ∧ declarationOf? ds e.scope e.name = some f := by
  rw [repetitions, mem_filterMap]
  constructor
  · rintro ⟨e, he, h⟩
    cases hf : declarationOf? ds e.scope e.name with
    | none => rw [hf] at h; cases h
    | some f =>
      rw [hf] at h
      simp only [beq_iff_eq] at h
      split_ifs at h with hfe
      cases h
      exact ⟨e, he, f, hfe, rfl, rfl, hf⟩
  · rintro ⟨e, he, f, hfe, rfl, rfl, hf⟩
    refine ⟨e, he, ?_⟩
    rw [hf]
    simp only [beq_iff_eq, if_neg hfe]

theorem mem_links : (x, t) ∈ links (references d ds script) ↔ ∃ s ∈ sites d ds script,
    s.node = x ∧ resolve? ds s.scopes (d.ownText x) = some t := by
  rw [links, references_eq_sites, filterMap_map, mem_filterMap]
  constructor
  · rintro ⟨s, hs, h⟩
    obtain ⟨t', ht, h⟩ := Option.map_eq_some_iff.mp h
    cases h
    exact ⟨s, hs, rfl, ht⟩
  · rintro ⟨s, hs, rfl, h⟩
    exact ⟨s, hs, Option.map_eq_some_iff.mpr ⟨t, h, rfl⟩⟩

theorem counts_of_declarationOf? {scope : NodeId} {f : Declaration}
    (h : declarationOf? ds scope name = some f) : f ∈ namesOf ds f.scope := by
  obtain ⟨hf, rfl, rfl⟩ := declarationOf?_eq_some h
  exact mem_namesOf.mpr ⟨hf, rfl, h⟩

theorem resolve?_eq_some {scopes : List NodeId}
    (h : resolve? ds scopes name = some t) : ∃ f ∈ namesOf ds f.scope, f.name = name ∧ f.node = t := by
  obtain ⟨scope, -, h⟩ := exists_of_findSome?_eq_some h
  obtain ⟨f, hf, rfl⟩ := Option.map_eq_some_iff.mp h
  exact ⟨f, counts_of_declarationOf? hf, (declarationOf?_eq_some hf).2.2, rfl⟩

/-- The identifiers that follow others, with those they follow. -/
abbrev linksOf (d : Document) (ds : List Declaration) (script : NodeId) : List (NodeId × NodeId) :=
  repetitions ds ++ links (references d ds script)

section Roles

variable (hds : declarations d script = .ok ds)
include hds

theorem encloses_scope {e : Declaration} (he : e ∈ ds) : d.Encloses script e.scope := by
  rcases (located_of_mem hds he).scope_below with ⟨-, h⟩ | ⟨-, c, hc, hr⟩
  · exact absurd rfl h
  · exact .head' hc hr

theorem encloses_node {e : Declaration} (he : e ∈ ds) : d.Encloses script e.node := by
  obtain ⟨c, hc, hr⟩ := (located_of_mem hds he).reaches
  exact .head' hc hr

omit hds in
theorem encloses_site {s : Site} (hs : s ∈ sites d ds script) : d.Encloses script s.node := by
  obtain ⟨c, hc, hr⟩ := (located_of_site hs).node_below
  exact .head' hc (hr.mono (entered_subset_kids d))

variable (hu : d.UniqueOwner script)
include hu

theorem target_unique {t' : NodeId} (h : (x, t) ∈ linksOf d ds script)
    (h' : (x, t') ∈ linksOf d ds script) : t = t' := by
  have hnodup := declarations_nodup hu hds
  rcases mem_append.mp h with h | h <;> rcases mem_append.mp h' with h' | h'
  · obtain ⟨e, he, f, -, rfl, rfl, hf⟩ := mem_repetitions.mp h
    obtain ⟨e', he', f', -, hx, rfl, hf'⟩ := mem_repetitions.mp h'
    obtain rfl := inj_on_of_nodup_map hnodup he he' hx
    rw [hf, Option.some_inj] at hf'
    rw [hf']
  · obtain ⟨e, he, f, -, rfl, -, -⟩ := mem_repetitions.mp h
    obtain ⟨s, hs, hx, -⟩ := mem_links.mp h'
    exact absurd (hx ▸ mem_map_of_mem he) (located_of_site hs).not_declared
  · obtain ⟨e, he, f, -, rfl, -, -⟩ := mem_repetitions.mp h'
    obtain ⟨s, hs, hx, -⟩ := mem_links.mp h
    exact absurd (hx ▸ mem_map_of_mem he) (located_of_site hs).not_declared
  · obtain ⟨s, hs, rfl, hr⟩ := mem_links.mp h
    obtain ⟨s', hs', hx, hr'⟩ := mem_links.mp h'
    obtain rfl := inj_on_of_nodup_map (sites_nodup hu) hs' hs hx
    rw [hr, Option.some_inj] at hr'
    exact hr'

theorem not_mem_linksOf {e : Declaration} (he : e ∈ namesOf ds e.scope) :
    e.node ∉ (linksOf d ds script).map Prod.fst := by
  obtain ⟨hmem, -, hfirst⟩ := mem_namesOf.mp he
  intro h
  obtain ⟨⟨x, t⟩, h, hx⟩ := mem_map.mp h
  obtain rfl : x = e.node := hx
  rcases mem_append.mp h with h | h
  · obtain ⟨e', he', f, hne, hx, -, hf⟩ := mem_repetitions.mp h
    obtain rfl := inj_on_of_nodup_map (declarations_nodup hu hds) hmem he' hx
    rw [hfirst, Option.some_inj] at hf
    exact hne hf.symm
  · obtain ⟨s, hs, hx, -⟩ := mem_links.mp h
    exact (located_of_site hs).not_declared (hx ▸ mem_map_of_mem hmem)

omit hds hu in
theorem exists_target (h : (x, t) ∈ linksOf d ds script) : ∃ f ∈ namesOf ds f.scope, f.node = t := by
  rcases mem_append.mp h with h | h
  · obtain ⟨e, -, f, -, -, rfl, hf⟩ := mem_repetitions.mp h
    exact ⟨f, counts_of_declarationOf? hf, rfl⟩
  · obtain ⟨s, -, -, hr⟩ := mem_links.mp h
    obtain ⟨f, hf, -, rfl⟩ := resolve?_eq_some hr
    exact ⟨f, hf, rfl⟩

omit hu in
theorem encloses_of_mem_linksOf (h : (x, t) ∈ linksOf d ds script) : d.Encloses script x := by
  rcases mem_append.mp h with h | h
  · obtain ⟨e, he, -, -, rfl, -, -⟩ := mem_repetitions.mp h
    exact encloses_node hds he
  · obtain ⟨s, hs, rfl, -⟩ := mem_links.mp h
    exact encloses_site hs

theorem script_not_renamed :
    script ∉ ds.map (·.node) ∧ script ∉ (linksOf d ds script).map Prod.fst := by
  constructor
  · intro hmem
    obtain ⟨e, he, heq⟩ := mem_map.mp hmem
    exact hu.not_encloses_top (heq ▸ encloses_node hds he)
  · intro hmem
    obtain ⟨⟨x, t⟩, hl, heq⟩ := mem_map.mp hmem
    obtain rfl : x = script := heq
    exact hu.not_encloses_top (encloses_of_mem_linksOf hds hl)

abbrev freeOf (d : Document) (ds : List Declaration) (script : NodeId) : List String :=
  freeNames (references d ds script)

section

variable {s : Site} (hs : s ∈ sites d ds script)
  (hr : resolve? ds s.scopes (d.ownText s.node) = none)
include hs hr

omit hds in
theorem site_not_mem_linksOf : s.node ∉ (linksOf d ds script).map Prod.fst := by
  intro hmem
  obtain ⟨⟨x, t⟩, hl, hx⟩ := mem_map.mp hmem
  obtain rfl : x = s.node := hx
  rcases mem_append.mp hl with hl | hl
  · obtain ⟨f, hf, -, -, hx, -, -⟩ := mem_repetitions.mp hl
    exact (located_of_site hs).not_declared (hx ▸ mem_map_of_mem hf)
  · obtain ⟨s', hs', hx, hr'⟩ := mem_links.mp hl
    obtain rfl := inj_on_of_nodup_map (sites_nodup hu) hs' hs hx
    rw [hr] at hr'
    cases hr'

omit hds hu in
theorem mem_freeOf : d.ownText s.node ∈ freeOf d ds script := by
  rw [freeOf, freeNames, mem_eraseDups, references_eq_sites]
  refine mem_map.mpr ⟨s.reference d ds, mem_filter.mpr ⟨mem_map_of_mem hs, ?_⟩, rfl⟩
  rw [Site.reference, hr]
  rfl

end

end Roles

/-- The script whose declarations carry new names and whose other identifiers follow them. -/
def newScript (d : Document) (ds : List Declaration) (script : NodeId) : Document :=
  rename (renamingsOf d ds script (freeOf d ds script)) (follow (linksOf d ds script) d)

@[simp] theorem size_newScript : (newScript d ds script).size = d.size := by
  rw [newScript, rename_eq_touch, size_touch, follow_eq_touch, size_touch]

theorem renamedScript_frame (g : Node → β) (hg : ∀ n p, g { n with payload := p } = g n) :
    g ((newScript d ds script).node x) = g (d.node x) := by
  rw [newScript, rename_eq_touch, touch_frame g hg, follow_eq_touch, touch_frame g hg]

/-- The new name that an identifier is written under: its own, else that of the identifier it
follows. -/
def newName (d : Document) (id : NodeId) : Option String :=
  (d.node id).naming.rename.or ((d.node id).naming.target.bind fun t => (d.node t).naming.rename)

section NewName

variable (hds : declarations d script = .ok ds) (hu : d.UniqueOwner script)
  (hn : ∀ x, Reaches d.refs script x → (d.node x).naming? = none)
include hds hu hn

theorem newScript_of_mem {r : Renaming} (hr : r ∈ renamingsOf d ds script (freeOf d ds script)) :
    (newScript d ds script).node r.declaration.node =
      { d.node r.declaration.node with payload := .naming { rename := some r.short } } := by
  obtain ⟨-, -, -, he⟩ := exists_visit hr
  have hreached := reaches_of_enc (encloses_node hds (mem_namesOf.mp he).1)
  have hfollow : (follow (linksOf d ds script) d).node r.declaration.node =
      d.node r.declaration.node := by
    rw [follow_eq_touch, node_touch_of_not_mem (not_mem_linksOf hds hu he)]
  rw [newScript, rename_eq_touch,
    node_touch_of_mem (g := fun m => { m with rename := some r.short }) ?_
      (mem_map_of_mem hr) ?_ fun m => rfl, hfollow]
  · simp [Node.naming, hn _ hreached]
  · rw [follow_eq_touch, size_touch]
    exact hu.lt_size hreached
  · intro r' hr' hx
    rw [eq_of_node_eq hu (declarations_nodup hu hds) hr' hr hx]

theorem newScript_of_link (h : (x, t) ∈ linksOf d ds script) :
    (newScript d ds script).node x =
      { d.node x with payload := .naming { target := some t } } := by
  have hreached := reaches_of_enc (encloses_of_mem_linksOf hds h)
  rw [newScript, rename_eq_touch, node_touch_of_not_mem, follow_eq_touch,
    node_touch_of_mem (g := fun m => { m with target := some t }) (hu.lt_size hreached)
      (mem_map_of_mem h) ?_ fun m => rfl]
  · simp [Node.naming, hn _ hreached]
  · rintro ⟨x', t'⟩ h' rfl
    rw [target_unique hds hu h' h]
  · intro hmem
    obtain ⟨r, hr, rfl⟩ := mem_map.mp hmem
    obtain ⟨-, -, -, he⟩ := exists_visit hr
    exact not_mem_linksOf hds hu he (mem_map_of_mem h)

omit hds hu hn in
theorem newScript_of_not_mem (hd : x ∉ ds.map (·.node)) (hl : x ∉ (linksOf d ds script).map Prod.fst) :
    (newScript d ds script).node x = d.node x := by
  rw [newScript, rename_eq_touch, node_touch_of_not_mem, follow_eq_touch, node_touch_of_not_mem hl]
  intro hmem
  obtain ⟨r, hr, rfl⟩ := mem_map.mp hmem
  obtain ⟨-, -, -, he⟩ := exists_visit hr
  exact hd (mem_map_of_mem (mem_namesOf.mp he).1)

theorem newName_of_mem {r : Renaming} (hr : r ∈ renamingsOf d ds script (freeOf d ds script)) :
    newName (newScript d ds script) r.declaration.node = some r.short := by
  rw [newName, newScript_of_mem hds hu hn hr]
  rfl

theorem newName_of_link (h : (x, t) ∈ linksOf d ds script) :
    newName (newScript d ds script) x = newName (newScript d ds script) t := by
  obtain ⟨f, hf, rfl⟩ := exists_target h
  obtain ⟨r, hr, rfl⟩ := exists_renaming hu (freeOf d ds script) hf
    (encloses_scope hds (mem_namesOf.mp hf).1)
  rw [newName_of_mem hds hu hn hr, newName, newScript_of_link hds hu hn h]
  show (((newScript d ds script).node r.declaration.node).naming.rename) = _
  rw [newScript_of_mem hds hu hn hr]
  rfl

theorem newName_declared {e : Declaration} (he : e ∈ ds) :
    ∃ r ∈ renamingsOf d ds script (freeOf d ds script), r.declaration.scope = e.scope ∧
      r.declaration.name = e.name ∧ newName (newScript d ds script) e.node = some r.short := by
  obtain ⟨f, hf⟩ := exists_declarationOf? he
  obtain ⟨hmem, hs, hname⟩ := declarationOf?_eq_some hf
  obtain ⟨r, hr, rfl⟩ := exists_renaming hu (freeOf d ds script)
    (counts_of_declarationOf? hf) (encloses_scope hds hmem)
  refine ⟨r, hr, hs, hname, ?_⟩
  by_cases heq : r.declaration = e
  · rw [← heq, newName_of_mem hds hu hn hr]
  · rw [newName_of_link hds hu hn (mem_append_left _ (mem_repetitions.mpr
      ⟨e, he, r.declaration, heq, rfl, rfl, hf⟩)), newName_of_mem hds hu hn hr]

omit hds hu in
theorem newName_other (hx : Reaches d.refs script x) (hd : x ∉ ds.map (·.node))
    (hl : x ∉ (linksOf d ds script).map Prod.fst) : newName (newScript d ds script) x = none := by
  rw [newName, newScript_of_not_mem hd hl, Node.naming, hn x hx]
  rfl

end NewName

end Script

end Stencil
