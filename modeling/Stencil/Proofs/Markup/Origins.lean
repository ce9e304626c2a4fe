import Stencil.Proofs.Template.Tracing

/-!
# Places across templates

When a template has been put together, its text comes from several files. The run that splits it into
markup takes on the line and the column of each piece of content, but the file of the root of the
document, or of the template block around the content, in which a run of its own started. So **a token
of the markup has the line and the column of its text in the file the text comes from, together with the
file of the block around it** (`markup_places_across_templates`).
-/

namespace Stencil

open Document List String

variable {c : NodeId} {j : Job} {host path pre : String} {V : String → Prop}

namespace Template

/-- The passes over a template that has been put together, up to those over its markup. -/
def prepare : Work Options := do
  applyConfig
  let o ← Work.options
  Work.onlyIf o.preprocessVariables (Work.apply (substituteVariables o.knownVariables))
  Work.onlyIf o.removeBlockTags (Work.apply (·.collapseKind root .block))
  Work.onlyIf o.preprocessMacros (Work.apply expandMacros)
  Work.onlyIf o.preprocessIfdebug (Work.apply (resolveDebug o.debug))
  Work.onlyIf o.mergeAllLoadTags (Work.apply groupLoads)
  Work.apply removeComments
  return o

theorem finishTemplate_eq :
    finishTemplate = prepare >>= fun o => Work.onlyIf o.isHtml Markup.process := by
  rw [finishTemplate, prepare]
  simp only [bind_assoc, pure_bind]

variable {S : Sources} {j' : Job}

theorem Sourced.onlyIf {f : Document → Document} {switch : Bool}
    (hf : ∀ {d : Document}, Sourced S V d → Sourced S V (f d)) (h : Sourced S V j.document)
    {u : Unit} (hok : Work.onlyIf switch (Work.apply f) j = .ok u j') : Sourced S V j'.document := by
  rw [Work.onlyIf] at hok
  split_ifs at hok
  · obtain rfl := Work.apply_eq_ok.mp hok
    exact hf h
  · obtain ⟨-, rfl⟩ := pure_eq_ok.mp hok
    exact h

theorem forM_document {α : Type} {f : α → Work PUnit} {l : List α}
    (hf : ∀ {a : α} {j j' : Job}, f a j = .ok ⟨⟩ j' → j'.document = j.document)
    (hok : l.forM f j = .ok ⟨⟩ j') : j'.document = j.document := by
  induction l generalizing j with
  | nil =>
    obtain ⟨-, rfl⟩ := pure_eq_ok.mp hok
    rfl
  | cons a l ih =>
    obtain ⟨_, j1, hok1, hok2⟩ := bind_eq_ok.mp hok
    exact (ih hok2).trans (hf hok1)

theorem applyConfig_document (hok : applyConfig j = .ok () j') : j'.document = j.document := by
  rw [applyConfig, Work.document_bind] at hok
  refine forM_document (fun hok => forM_document (fun hok => ?_) hok) hok
  obtain ⟨s, -, rfl⟩ := Work.task_eq_ok.mp hok
  rfl

def IsValue (values : List (String × String)) (value : String) : Prop :=
  ∃ name, (name, value) ∈ values

theorem prepare_sourced {o : Options} (h : Sourced S (fun _ => False) j.document)
    (hok : prepare j = .ok o j') : Sourced S (IsValue o.knownVariables) j'.document := by
  obtain ⟨_, j1, hconfig, hok⟩ := bind_eq_ok.mp hok
  have hsame : j1.document = j.document := applyConfig_document hconfig
  rw [Work.options_bind] at hok
  generalize j1.session.options = options at hok
  obtain ⟨_, j2, h2, hok⟩ := bind_eq_ok.mp hok
  obtain ⟨_, j3, h3, hok⟩ := bind_eq_ok.mp hok
  obtain ⟨_, j4, h4, hok⟩ := bind_eq_ok.mp hok
  obtain ⟨_, j5, h5, hok⟩ := bind_eq_ok.mp hok
  obtain ⟨_, j6, h6, hok⟩ := bind_eq_ok.mp hok
  obtain ⟨_, j7, h7, hok⟩ := bind_eq_ok.mp hok
  obtain ⟨rfl, rfl⟩ := pure_eq_ok.mp hok
  have hs1 : Sourced S (IsValue options.knownVariables) j1.document :=
    hsame ▸ h.mono fun _ hv => hv.elim
  have hs2 := hs1.onlyIf (fun h => h.substituteVariables fun name value hv => ⟨name, hv⟩) h2
  have hs3 := hs2.onlyIf (fun h => h.collapseKind (by decide)) h3
  have hs4 := hs3.onlyIf (fun h => h.expandMacros) h4
  have hs5 := hs4.onlyIf (fun h => h.resolveDebug options.debug) h5
  have hs6 := hs5.onlyIf (fun h => h.groupLoads) h6
  obtain rfl := Work.apply_eq_ok.mp h7
  exact hs6.removeNodes _

end Template

def Library.sources (lib : Library) (path source : String) : Sources := fun file text =>
  file = path ∧ text = source ∨ lib.load file = .ok text

theorem Template.sourced_of_prepared {source : String} {s : Session} {o : Options}
    (hok : (assemble s.loader >>= fun _ => Template.prepare)
      { session := s, document := ofSource path source } = .ok o j) :
    Sourced (s.templates.sources path source) (IsValue o.knownVariables) j.document := by
  obtain ⟨_, j1, hassemble, hprepare⟩ := bind_eq_ok.mp hok
  have hmain : s.templates.sources path source path source := .inl ⟨rfl, rfl⟩
  have hload : (loadTemplate (s.templates.capacity + 1)).Traces s.templates
      (s.templates.sources path source) fun _ => False := loadTemplate_traces (fun _ _ => .inr) _
  exact prepare_sourced (assemble_sourced (loadTemplate_resumes _) hload hmain rfl hassemble) hprepare

namespace Place

theorem advance_inFile (p : Place) (file : String) (text : List Char) :
    (p.inFile file).advance text = (p.advance text).inFile file := by
  induction text generalizing p with
  | nil => rfl
  | cons c text ih =>
    have hnext : (p.inFile file).next c = (p.next c).inFile file := by
      rw [next, next]
      split_ifs <;> rfl
    rw [advance, foldl_cons, hnext]
    exact ih (p.next c)

end Place

namespace Markup

variable {S : Sources} {values : List (String × String)} {d d' : Document}

/-- Splitting the markup comes to the node `x` behind the text `pre`, in a run for the file `host`. -/
def Reads (d : Document) (host pre : String) (x : NodeId) : Prop :=
  d.Meets [.content, .expanded] Kind.templateBlocks d.path (d.branch root 0) host pre x

/-- Where splitting the markup comes behind the text `pre`, and the place it has there. -/
inductive Origin (S : Sources) (values : List (String × String)) (d : Document) :
    (pre : String) → Place → Prop where
  /-- In the text of a file: the place has the line and the column in this file, and the file `host`
  of the run, which is one of the files too. -/
  | source {file host pre before behind a z : String} {c : NodeId} :
      Reads d host pre c → (∃ text, S host text) → d.kind c = .content →
      d.branches c = [[.text (a ++ z)]] → S file (before ++ (a ++ z) ++ behind) →
      d.place c = .after file before →
      Origin S values d (pre ++ a) ((Place.after file (before ++ a)).inFile host)
  /-- In the value of a variable: lines and columns are counted from where the variable stood. -/
  | value {host pre name a z : String} {c : NodeId} :
      Reads d host pre c → (∃ text, S host text) → d.kind c = .expanded →
      d.branches c = [[.text (a ++ z)]] → (name, a ++ z) ∈ values →
      Origin S values d (pre ++ a) (((d.place c).inFile host).advance a.toList)

/-- Splitting the markup fails in some text, or where something has been put in place of a tag. -/
def FailsAt (S : Sources) (values : List (String × String)) (d : Document) (p : Place) : Prop :=
  (∃ pre, Origin S values d pre p) ∨ ∃ host pre c, Reads d host pre c ∧ (∃ text, S host text) ∧
    d.kind c ∈ [Kind.content, .expanded] ∧ p = (d.place c).inFile host

/-- New nodes have places in the text they come from. -/
def origins (S : Sources) (values : List (String × String)) (d : Document) : Timetable where
  since := d.size
  arrives pre x p := d.size ≤ x → Origin S values d pre p
  fails := FailsAt S values d
  fails_of_arrives hx h := .inl ⟨_, h hx⟩

open Template

theorem host_mem (ht : d.Traced S V) {b : Branch} (hpath : ∃ text, S path text)
    (h : d.Meets [.content, .expanded] Kind.templateBlocks path b host pre c) :
    ∃ text, S host text := by
  induction h with
  | node => exact hpath
  | through _ _ ih => exact ih hpath
  | @enter _ _ _ p _ _ _ _ hk _ ih =>
    refine ih (ht p ?_).file
    by_contra hlt
    rw [kind, node_of_le (not_lt.mp hlt)] at hk
    exact absurd hk (by decide)
  | skipNode _ ih => exact ih hpath
  | skipText _ ih => exact ih hpath

section

variable (h : Sourced S (IsValue values) d)
include h

theorem length_root : (d.branches root).length = 1 :=
  h.traced.length_branches (h.root_kind.symm ▸ by decide)

theorem lead_root : d.lead root 0 = "" := by
  have hsimple : d.kind root ∈ Kind.simple := by rw [h.root_kind]; decide
  rw [lead_of_none ((h.traced root h.root_lt).bare hsimple), h.root_kind]
  rfl

theorem plain_of_sourced : d.Plain := fun x => by
  by_cases hx : x < d.size
  · exact (h.traced x hx).plain
  · rw [node_of_le (not_lt.mp hx)]
    rfl

theorem bodiless_of_sourced : Run.Bodiless [.content, .expanded] d := fun x hk => by
  have hne : ∀ k ∈ [Kind.content, .expanded], k ≠ .root ∧ k ∈ Kind.simple := by decide
  exact (h.traced x (lt_of_kind_ne (hne _ hk).1)).bare (hne _ hk).2

theorem tidy_of_sourced {x : NodeId} (hk : d.kind x ∈ [Kind.content, .expanded]) : (d.node x).Tidy := by
  have hne : ∀ k ∈ [Kind.content, .expanded], k ≠ .root ∧ k ∈ Kind.simple := by decide
  have hn := h.traced x (lt_of_kind_ne (hne _ hk).1)
  obtain ⟨b, hb⟩ := length_eq_one_iff.mp (hn.single (hne _ hk).2)
  have hsuits := hn.suits b (hb ▸ mem_singleton_self b)
  have hcases : b.Wordless ∨ ∃ s, b = [.text s] := by
    rcases mem_cons.mp hk with hk | hk
    · exact (hsuits.content hk).imp_right fun hs => hs.imp fun _ => And.left
    · exact (hsuits.expanded (mem_singleton.mp hk)).imp_right fun hs => hs.imp fun _ => And.left
  rcases hcases with hw | ⟨s, rfl⟩
  · refine .inr fun c hc => ?_
    rw [hb, mem_singleton] at hc
    exact hc ▸ hw
  · exact .inl ⟨s, hb⟩

theorem origin_of_reads {s : String} {a z : List Char}
    (hread : Reads d host pre c) (hk : d.kind c ∈ [Kind.content, .expanded])
    (hb : d.branches c = [[.text s]]) (hs : s.toList = a ++ z) :
    Origin S values d (pre ++ String.ofList a) (((d.place c).inFile host).advance a) := by
  have hhost := host_mem h.traced (h.traced root h.root_lt).file hread
  have hc : c < d.size := lt_of_kind_ne fun hroot => by
    rw [hroot] at hk
    exact absurd hk (by decide)
  have hsuits := (h.traced c hc).suits [.text s] (by
    rw [← branches, hb]
    exact mem_singleton_self _)
  have hword : ¬ Branch.Wordless [.text s] := fun hw => hw s (mem_singleton_self _)
  obtain rfl : s = String.ofList a ++ String.ofList z := by
    rw [← ofList_append, ← hs, ofList_toList]
  rcases mem_cons.mp hk with hk | hk
  · obtain ⟨t, ht, file, before, behind, hS, hplace⟩ := (hsuits.content hk).resolve_left hword
    cases ht
    have hplace : d.place c = Place.after file before := hplace
    have heq : ((d.place c).inFile host).advance a =
        (Place.after file (before ++ String.ofList a)).inFile host := by
      rw [Place.advance_inFile, hplace, Place.advance_after]
    rw [heq]
    exact .source hread hhost hk hb hS hplace
  · have hk := mem_singleton.mp hk
    obtain ⟨t, ht, name, hname⟩ := (hsuits.expanded hk).resolve_left hword
    cases ht
    have horigin := Origin.value hread hhost hk hb hname
    rwa [toList_ofList] at horigin

theorem due_of_sourced : Due (origins S values d) [.content, .expanded] Kind.templateBlocks d d.path
    "" (d.branch root 0) where
  timed pre x hstands hx := by
    obtain ⟨c, hc, hr⟩ := hstands.reaches
    have hlt := h.grove.lt_of_reaches
      (h.grove.lt_of_refs (refs_of_mem hc)) (hr.mono d.kids_sub)
    exact absurd hlt (not_lt.mpr hx)
  tidy c _ y _ := ⟨tidy_of_sourced h, fun hk => h.traced.wordless rfl
    (mem_cons_of_mem _ (mem_cons_of_mem _ hk))⟩
  fails hm hk :=
    .inr ⟨_, _, _, hm, host_mem h.traced (h.traced root h.root_lt).file hm, hk, rfl⟩
  ready hm hk hb hs x _ _ := by
    rw [empty_append]
    exact origin_of_reads h hm hk hb hs

end

theorem lex_timed (h : Sourced S (IsValue values) d) :
    Yields lex d (fun _ d' => Grammar.Underway (origins S values d) "" d root [] 1 d')
      fun e _ => (origins S values d).Allows e := by
  have hlen := length_root h
  rw [← hlen]
  refine Grammar.tokenize_timed grammar_lossless grammar_punctual (by decide) h.grove
    (plain_of_sourced h) (bodiless_of_sourced h) (le_refl _) fun i hi => ?_
  rw [hlen] at hi
  obtain rfl : i = 0 := Nat.lt_one_iff.mp hi
  rw [lead_root h]
  exact .inl ⟨h.traced.wordless_branch h.root_kind (by decide) 0, due_of_sourced h⟩

theorem fails_of_allows {t : Timetable} {e : Error} (h : t.Allows e) : t.fails e.place := by
  cases e with
  | lex | openToken | openState => exact h
  | openBlock | scope | template | load | unknownOption => exact h.elim

end Markup

/-- The markup of a template is split when the passes in front of it have been carried out. Each token
that this makes stands somewhere in the template, and **its line and column are those of its text in
the file the text comes from; its file is that of the run** (`Markup.Origin`). So are those of errors.
-/
theorem markup_places_across_templates {path source : String} {s : Session} {o : Options} {j : Job}
    (hok : (assemble s.loader >>= fun _ => Template.prepare)
      { session := s, document := ofSource path source } = .ok o j) :
    finishTemplate = (Template.prepare >>= fun o => Work.onlyIf o.isHtml Markup.process) ∧
    (∀ d', Markup.lex j.document = .ok () d' → ∀ x, j.document.size ≤ x → x < d'.size →
      (∃ pre, d'.Stands (d'.branch root 0) pre x) ∧
      ∀ pre, d'.Stands (d'.branch root 0) pre x → Markup.Origin (s.templates.sources path source)
        o.knownVariables j.document pre (d'.place x)) ∧
    ∀ e d', Markup.lex j.document = .error e d' →
      Markup.FailsAt (s.templates.sources path source) o.knownVariables j.document e.place := by
  have hsourced := Template.sourced_of_prepared hok
  have htimed := Markup.lex_timed hsourced
  refine ⟨Template.finishTemplate_eq, fun d' hlex x hle hlt => ?_,
    fun e d' hlex => Markup.fails_of_allows (htimed.error e d' hlex)⟩
  have hunderway := htimed.ok () d' hlex
  have hne : x ≠ root := ne_of_gt (lt_of_lt_of_le hsourced.root_lt hle)
  refine ⟨exists_stands_of_encloses (hunderway.length_eq.trans (Markup.length_root hsourced))
    (encloses_of_reaches hne (Grammar.reaches_of_tokenize hsourced.grove hlex hle hlt)),
    fun pre hstands => ?_⟩
  have harrives := hunderway.done 0 Nat.one_pos pre x hstands hle
  rwa [Markup.lead_root hsourced, String.empty_append, String.empty_append] at harrives

def includingPage : String := "\x7b% include \"b\" %\x7d"

def includedFiles : Library := .listing [("b", some "a\n<p>")]

/-- The page has a single line, but a token of its markup is in its second line. -/
theorem markup_places_across_templates_included : ∃ o j d' x pre,
    (assemble ({ templates := includedFiles } : Session).loader >>= fun _ => Template.prepare)
      { session := { templates := includedFiles }, document := ofSource "page" includingPage } =
        .ok o j ∧
    Markup.lex j.document = .ok () d' ∧ j.document.size ≤ x ∧ x < d'.size ∧
    d'.place x = { path := "page", line := 2, column := 1 } ∧ '\n' ∉ includingPage.toList ∧
    Markup.Origin (includedFiles.sources "page" includingPage) o.knownVariables j.document pre
      (d'.place x) := by
  have hok : succeeds (do
        let o ← assemble ({ templates := includedFiles } : Session).loader >>= fun _ =>
          Template.prepare
        let d ← Work.document
        Work.edit Markup.lex
        return (o, d.size))
      ({ session := { templates := includedFiles }, document := ofSource "page" includingPage } : Job)
      (fun r j => decide (∃ x < j.document.size, r.2 ≤ x ∧
        j.document.place x = { path := "page", line := 2, column := 1 })) = true := by
    decide +kernel
  obtain ⟨⟨o, size⟩, j', h, hcheck⟩ := of_succeeds hok
  obtain ⟨x, hlt, hle, hplace⟩ := of_decide_eq_true hcheck
  obtain ⟨o', j, hprepared, h⟩ := bind_eq_ok.mp h
  rw [Work.document_bind] at h
  obtain ⟨_, j1, hedit, h⟩ := bind_eq_ok.mp h
  obtain ⟨hpair, rfl⟩ := pure_eq_ok.mp h
  obtain ⟨rfl, rfl⟩ := Prod.mk.inj hpair
  obtain ⟨d', hlex, rfl⟩ := Work.edit_eq_ok.mp hedit
  obtain ⟨-, hplaces, -⟩ := markup_places_across_templates hprepared
  obtain ⟨⟨pre, hstands⟩, horigin⟩ := hplaces d' hlex x hle hlt
  exact ⟨_, j, d', x, pre, hprepared, hlex, hle, hlt, hplace, by decide, horigin pre hstands⟩

end Stencil
