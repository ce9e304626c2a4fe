import Stencil.Proofs.Script.AlphaEquivalence

/-!
# Names declared in blocks

A bracketed block is a scope of its own, also for names declared by `var`, and also where it is no
function body. So a name that is declared in a block and used in the function around the block is
written under one name exactly where the block is around the use (**`emittedName_eq_iff`**).
-/

namespace Stencil.Script

open Document List

variable {x : NodeId} {d d' : Document} {ds : List Declaration} {script : NodeId} {e : Declaration}
  {s : Site}

/-- The name an identifier is written under: its new name, else that of the identifier it follows,
else its own text. -/
def emittedName (d : Document) (id : NodeId) : String :=
  (newName d id).getD (d.ownText id)

/-- Of the scopes around a site only the scope of `e`, and scopes around that one, declare the name
of `e`. -/
def NoneBetween (d : Document) (ds : List Declaration) (e : Declaration) (s : Site) : Prop :=
  ∀ f ∈ ds, f.name = e.name → f.scope ∈ s.scopes → f.scope = e.scope ∨ d.Encloses f.scope e.scope

theorem not_encloses_self (hu : d.UniqueOwner script)
    (hx : Reaches d.refs script x) : ¬ d.Encloses x x := by
  intro h
  obtain ⟨c, hc, hr⟩ := Relation.TransGen.head'_iff.mp h
  exact hu.not_reaches_mem hx (d.kids_sub x hc) (Reaches.mono d.kids_sub hr)

theorem declarationOf?_eq_none {scope : NodeId} {name : String}
    (h : ∀ f ∈ ds, f.name = name → f.scope ≠ scope) : declarationOf? ds scope name = none := by
  refine List.find?_eq_none.mpr fun f hf => ?_
  rw [Bool.and_eq_true, beq_iff_eq, beq_iff_eq]
  exact fun ⟨hscope, hname⟩ => h f hf hname hscope

theorem resolve?_eq_of_innermost {scopes : List NodeId} (hu : d.UniqueOwner script)
    (hreached : Reaches d.refs script e.scope) (he : e ∈ ds)
    (hs : scopes.Pairwise fun a b => d.Encloses b a) (hmem : e.scope ∈ scopes)
    (hb : ∀ f ∈ ds, f.name = e.name → f.scope ∈ scopes →
      f.scope = e.scope ∨ d.Encloses f.scope e.scope) :
    resolve? ds scopes e.name = (declarationOf? ds e.scope e.name).map (·.node) := by
  induction scopes with
  | nil => cases hmem
  | cons scope outer ih =>
    obtain ⟨hin, hs⟩ := pairwise_cons.mp hs
    rw [resolve?, List.findSome?_cons]
    rcases mem_cons.mp hmem with rfl | hmem
    · obtain ⟨f, hf⟩ := exists_declarationOf? he
      rw [hf]
      rfl
    · -- a scope inside `e.scope` does not declare the name
      have hnone : declarationOf? ds scope e.name = none := by
        refine declarationOf?_eq_none fun f hf hname hscope => ?_
        have hinner : d.Encloses e.scope f.scope := hscope ▸ hin e.scope hmem
        rcases hb f hf hname (hscope ▸ mem_cons_self) with heq | hout
        · exact not_encloses_self hu hreached (heq ▸ hinner)
        · exact not_encloses_self hu hreached (hinner.trans hout)
      rw [hnone]
      exact ih hs hmem fun f hf hname hmem => hb f hf hname (mem_cons_of_mem _ hmem)

section Emitted

variable (hds : declarations d script = .ok ds) (hu : d.UniqueOwner script)
  (hn : ∀ x, Reaches d.refs script x → (d.node x).naming? = none)
include hds hu hn

theorem emittedName_declared (he : e ∈ ds) :
    ∃ r ∈ renamingsOf d ds script (freeOf d ds script), r.declaration.scope = e.scope ∧
      r.declaration.name = e.name ∧ emittedName (newScript d ds script) e.node = r.short := by
  obtain ⟨r, hr, hscope, hname, hnew⟩ := newName_declared hds hu hn he
  exact ⟨r, hr, hscope, hname, by rw [emittedName, hnew]; rfl⟩

theorem emittedName_of_resolve? (hs : s ∈ sites d ds script) {f : Declaration}
    (hr : resolve? ds s.scopes (d.ownText s.node) = some f.node) (hf : f ∈ ds) :
    emittedName (newScript d ds script) s.node =
      emittedName (newScript d ds script) f.node := by
  have hlink : (s.node, f.node) ∈ linksOf d ds script :=
    mem_append_right _ (mem_links.mpr ⟨s, hs, rfl, hr⟩)
  obtain ⟨r, -, -, -, hnew⟩ := newName_declared hds hu hn hf
  rw [emittedName, emittedName, newName_of_link hds hu hn hlink, hnew]
  rfl

omit hds in
theorem emittedName_of_free (hs : s ∈ sites d ds script)
    (hr : resolve? ds s.scopes (d.ownText s.node) = none) :
    emittedName (newScript d ds script) s.node = d.ownText s.node ∧
      d.ownText s.node ∈ freeOf d ds script := by
  have hloc := located_of_site hs
  have hlink := site_not_mem_linksOf hu hs hr
  refine ⟨?_, mem_freeOf hs hr⟩
  rw [emittedName, newName_other hn (reaches_of_enc (encloses_site hs)) hloc.not_declared
    hlink, ownText, children, newScript_of_not_mem hloc.not_declared hlink]
  rfl

section

variable (he : e ∈ ds) (hs : s ∈ sites d ds script) (hname : d.ownText s.node = e.name)
  (hb : NoneBetween d ds e s)
include he hs hname hb

theorem emittedName_ne_of_outside (hout : e.scope ∉ s.scopes) :
    emittedName (newScript d ds script) s.node ≠
      emittedName (newScript d ds script) e.node := by
  obtain ⟨r, hr, hscope, -, hshort⟩ := emittedName_declared hds hu hn he
  rw [hshort]
  cases hres : resolve? ds s.scopes (d.ownText s.node) with
  | none =>
    obtain ⟨hkept, hfree⟩ := emittedName_of_free hu hn hs hres
    rw [hkept]
    exact fun heq => short_not_free hr (heq ▸ hfree)
  | some t =>
    -- the name stands for a declaration further out, and names on the way down differ
    obtain ⟨scope, hmem, hf⟩ := exists_of_findSome?_eq_some hres
    obtain ⟨f, hfirst, rfl⟩ := Option.map_eq_some_iff.mp hf
    obtain ⟨hfds, rfl, hfname⟩ := declarationOf?_eq_some hfirst
    rw [emittedName_of_resolve? hds hu hn hs hres hfds]
    obtain ⟨r', hr', hscope', -, hshort'⟩ := emittedName_declared hds hu hn hfds
    rw [hshort']
    refine short_ne_of_encloses hu hr' hr ?_
    rw [hscope, hscope']
    rcases hb f hfds (hfname.trans hname) hmem with heq | hin
    · exact absurd (heq ▸ hmem) hout
    · exact hin

theorem emittedName_eq_of_inside (hin : e.scope ∈ s.scopes) :
    emittedName (newScript d ds script) s.node =
      emittedName (newScript d ds script) e.node := by
  obtain ⟨f, hf⟩ := exists_declarationOf? he
  obtain ⟨hfds, hfscope, hfname⟩ := declarationOf?_eq_some hf
  have hres : resolve? ds s.scopes (d.ownText s.node) = some f.node := by
    rw [hname, resolve?_eq_of_innermost hu (reaches_of_enc (encloses_scope hds he)) he
      (scopes_pairwise hs) hin hb, hf]
    rfl
  rw [emittedName_of_resolve? hds hu hn hs hres hfds]
  -- of the declarations of one name in one scope all are written as the first
  obtain ⟨r, hr, hscope, hrname, hshort⟩ := emittedName_declared hds hu hn he
  obtain ⟨r', hr', hscope', hrname', hshort'⟩ := emittedName_declared hds hu hn hfds
  rw [hshort, hshort']
  obtain ⟨-, -, -, hc⟩ := exists_visit hr
  obtain ⟨-, -, -, hc'⟩ := exists_visit hr'
  have hfirst := (mem_namesOf.mp hc).2.2
  have hfirst' := (mem_namesOf.mp hc').2.2
  rw [hscope, hrname, ← hfscope, ← hfname, ← hscope', ← hrname', hfirst', Option.some_inj] at hfirst
  rw [eq_of_node_eq hu (declarations_nodup hu hds) hr hr' (by rw [hfirst])]

end

theorem emittedName_minify (hx : Reaches d.refs script x) (hk : d.kind x = .identifier) :
    emittedName (separateBraces (newScript d ds script) script) x =
      emittedName (newScript d ds script) x := by
  obtain ⟨_, -, hsep, -⟩ := exists_sourceOf_eq hds hu hn
  rw [emittedName, emittedName, newName_separateBraces hsep, ownText, ownText, children, children,
    (eq_of_identifier hu hsep hx hk).1]

end Emitted

/-- After a script has been minified, a name declared in some scope and a name that is looked up
elsewhere, with none of the same name in between, are written alike exactly if the scope of the
declaration is around the other. Otherwise the declaration gets a new name, and the other keeps its
old one unless it is declared further out too. -/
theorem emittedName_eq_iff {report : Report} (hu : d.UniqueOwner script)
    (hn : ∀ x, Reaches d.refs script x → (d.node x).naming? = none)
    (h : minify script d = .ok report d') (hds : declarations d script = .ok ds) (he : e ∈ ds)
    (hs : s ∈ sites d ds script) (hname : d.ownText s.node = e.name) (hb : NoneBetween d ds e s) :
    (emittedName d' s.node = emittedName d' e.node ↔ e.scope ∈ s.scopes) ∧
      ((∀ f ∈ ds, f.name = e.name → f.scope ∉ s.scopes) →
        emittedName d' s.node = e.name ∧ emittedName d' e.node ≠ e.name) := by
  obtain ⟨ds', hds', -, rfl⟩ := minify_eq_ok h
  obtain rfl : ds' = ds := by
    rw [hds] at hds'
    exact (Except.ok.inj hds').symm
  rw [emittedName_minify hds hu hn (reaches_of_enc (encloses_site hs))
      (located_of_site hs).kind_eq,
    emittedName_minify hds hu hn (reaches_of_enc (encloses_node hds he))
      (located_of_mem hds he).kind_eq]
  refine ⟨⟨fun heq => ?_, fun hin => emittedName_eq_of_inside hds hu hn he hs hname hb hin⟩,
    fun hnone => ?_⟩
  · by_contra hout
    exact emittedName_ne_of_outside hds hu hn he hs hname hb hout heq
  · have hres : resolve? ds' s.scopes (d.ownText s.node) = none := by
      refine List.findSome?_eq_none_iff.mpr fun scope hscope => ?_
      rw [hname, declarationOf?_eq_none fun f hf hfname hfs => hnone f hf hfname (hfs ▸ hscope)]
      rfl
    obtain ⟨hkept, -⟩ := emittedName_of_free hu hn hs hres
    have hne := emittedName_ne_of_outside hds hu hn he hs hname hb (hnone e he rfl)
    rw [hkept, hname] at hne
    exact ⟨hkept.trans hname, hne.symm⟩

/-- A function with a name that is declared in a block of it and used behind the block:
`function f(c){if(c){var x=1;}return x;}`. -/
def blockVariable : Document where
  nodes := #[
    nestedScript.leaf .root [.node 1, .node 2, .node 3, .node 4, .node 5],
    nestedScript.leaf .keyword [.text "function"], nestedScript.leaf .scriptSpace [.text " "],
    nestedScript.leaf .identifier [.text "f"], nestedScript.leaf .parentheses [.node 6],
    nestedScript.leaf .scope
      [.node 7, .node 8, .node 9, .node 10, .node 11, .node 12, .node 13],
    nestedScript.leaf .identifier [.text "c"], nestedScript.leaf .keyword [.text "if"],
    nestedScript.leaf .parentheses [.node 14],
    nestedScript.leaf .scope [.node 15, .node 16, .node 17, .node 18, .node 19, .node 20],
    nestedScript.leaf .keyword [.text "return"], nestedScript.leaf .scriptSpace [.text " "],
    nestedScript.leaf .identifier [.text "x"], nestedScript.leaf .operator [.text ";"],
    nestedScript.leaf .identifier [.text "c"], nestedScript.leaf .keyword [.text "var"],
    nestedScript.leaf .scriptSpace [.text " "], nestedScript.leaf .identifier [.text "x"],
    nestedScript.leaf .operator [.text "="], nestedScript.leaf .number [.text "1"],
    nestedScript.leaf .operator [.text ";"]]

theorem uniqueOwner_blockVariable : blockVariable.UniqueOwner 0 :=
  .of_slots (by decide) (by decide) (by decide) (by decide)

theorem naming?_blockVariable (x : NodeId) : (blockVariable.node x).naming? = none := by
  by_cases hx : x < blockVariable.size
  · have h : ∀ x : Fin blockVariable.size, (blockVariable.node x).naming? = none := by decide
    exact h ⟨x, hx⟩
  · rw [node_of_le (not_lt.mp hx)]
    rfl

/-- What `blockVariable` declares: the parameter, and the variable of the block. -/
def blockVariableDeclarations : List Declaration :=
  [{ scope := 5, name := "c", node := 6 }, { scope := 9, name := "x", node := 17 }]

/-- Behind its block the variable keeps its name, in the block it gets another. -/
theorem emittedName_eq_iff_blockVariable :
    ∃ report d', minify 0 blockVariable = .ok report d' ∧
      declarations blockVariable 0 = .ok blockVariableDeclarations ∧
      { scopes := [5, 0], node := 12 } ∈ sites blockVariable blockVariableDeclarations 0 ∧
      emittedName d' 12 = "x" ∧ emittedName d' 17 ≠ "x" ∧ emittedName d' 12 ≠ emittedName d' 17 := by
  obtain ⟨report, d', h⟩ : ∃ report d', minify 0 blockVariable = .ok report d' := ⟨_, _, rfl⟩
  have hds : declarations blockVariable 0 = .ok blockVariableDeclarations := by decide +kernel
  have hs : { scopes := [5, 0], node := 12 } ∈
      sites blockVariable blockVariableDeclarations 0 := by decide +kernel
  have he : (⟨9, "x", 17⟩ : Declaration) ∈ blockVariableDeclarations := by decide
  have hnone : ∀ f ∈ blockVariableDeclarations, f.name = "x" → f.scope ∉ [5, 0] := by decide
  obtain ⟨hiff, hkept⟩ := emittedName_eq_iff uniqueOwner_blockVariable
    (fun x _ => naming?_blockVariable x) h hds he hs (by decide)
    fun f hf hname hmem => absurd hmem (hnone f hf hname)
  obtain ⟨hold, hnew⟩ := hkept hnone
  exact ⟨report, d', h, hds, hs, hold, hnew, fun heq => absurd (hiff.mp heq) (by decide)⟩

end Stencil.Script
