import Stencil.Proofs.Template.Decorating
import Stencil.Proofs.Template.Ownership

/-!
# Compiling comes to an end

Templates are loaded one inside the other and decorate tags are expanded one inside the other, both only
so many levels deep. `compileWithin` is compiling with other limits, and with something else done where
a limit is reached. **For a listing of templates it does not matter what** (`compiling_stays_within`):
as many levels as there are names are enough for the templates, and as many as there are nodes for the
tags. The limit of scans is not met either.
-/

namespace Stencil

open Document List

variable {files : List (String × Option String)} {s : Session}

structure Limits where
  /-- How many templates are loaded one inside the other. -/
  depth : Nat
  tooDeep : Template.Loader
  /-- How many templates are being read at a time. -/
  most : Nat
  tooMany : Template.Loader
  /-- How many levels of decorate tags are expanded, more than a document has nodes. -/
  levels : Nat
  tooNested : NodeId → Work Unit

namespace Limits

/-- Reads a document as a template and puts it together with the templates it refers to. -/
def assemble (m : Limits) (load : Template.Loader) : Work Unit := do
  Work.edit Template.parse
  Template.expandExtends load
  Template.expandIncludes load
  Template.expandDecoratesUpTo m.tooNested load ((← Work.document).size + m.levels) root

/-- Loads templates, at most `depth` of them one inside the other. -/
def load (m : Limits) : (depth : Nat) → Template.Loader
  | 0, name, place => m.tooDeep name place
  | depth + 1, name, place => do
    let source ← SessionM.load name place
    SessionM.reading name place do
      if (← get).loading.length ≤ m.most then onSource name source (m.assemble (m.load depth))
      else m.tooMany name place

end Limits

/-- Reads a template within limits; the main template also goes through the passes. -/
def parseWithin (m : Limits) (path source : String) (main : Bool) : SessionM Document :=
  onSource path source do
    m.assemble (m.load m.depth)
    Work.onlyIf main finishTemplate

def compileWithin (m : Limits) (path source : String) : SessionM String := do
  return (← parseWithin m path source true).output

section

variable {I : Session → Prop} {load load' : Template.Loader} {j : Job}

theorem assemble_alike (hI : Session.Stable I) (hr : load.Resumes) (hl : load.Settles)
    (hagree : Template.Loader.AgreeOn I load load') (m : Limits) (hj : I j.session)
    (hg : j.document.Grove [root]) :
    assemble load j = m.assemble load' j ∧
      ∀ j', assemble load j = .ok () j' → Template.Settled j'.document := by
  have hA := Template.agree_along hI
  have hloads := hagree.task hI hr
  -- after the first steps the document is a tree, and the session is as good as before
  have hdecorates : ∀ {j1 j2 j3 : Job}, Work.edit Template.parse j = .ok () j1 →
      Template.expandExtends load j1 = .ok () j2 → Template.expandIncludes load j2 = .ok () j3 →
      Template.expandDecorates load j3 = Template.expandDecoratesUpTo m.tooNested load'
        (j3.document.size + m.levels) root j3 ∧
      ∀ j', Template.expandDecorates load j3 = .ok () j' → Template.Settled j'.document := by
    intro j1 j2 j3 hok1 hok2 hok3
    have hj1 := (hA.parse j hj).2 _ _ hok1
    have hj2 := (hA.expandExtends hloads j1 hj1).2 _ _ hok2
    have hj3 := (hA.expandIncludes hloads j2 hj2).2 _ _ hok3
    have hg1 := (Template.parse_sustains.sustained hg hok1).grove
    have hg2 := (Template.expandExtends_keepsTree hl.plants).grove hg1 hok2
    have hg3 := ((Template.expandIncludes_sustains hl.plants).sustained hg2 hok3).grove
    have hroot := Template.root_lt hg3
    have hnest : ∀ c ∈ j3.document.kids root,
        Template.Nested j3.document (j3.document.size - 1) c := fun c hc =>
      .of_shallow ((hg3.shallow_kids hroot).child hc)
    have hlt : j3.document.size - 1 < j3.document.size :=
      Nat.sub_lt (Nat.zero_lt_of_lt hroot) Nat.one_pos
    obtain ⟨heq, hnext⟩ := Template.expandDecorates_alike hI hr hl hagree (fun _ => pure ())
      m.tooNested hlt (lt_of_lt_of_le hlt (Nat.le_add_right _ m.levels)) hj3 hg3 .refl hnest
    rw [Template.expandDecorates, Work.document_bind, Template.expandDecoratesBelow_eq]
    refine ⟨heq, fun j' hok => ?_⟩
    obtain ⟨-, hg', hcleared⟩ := hnext j' hok
    exact ⟨hg', hcleared.nested hg3 hroot⟩
  constructor
  · refine estate_bind_congr rfl fun _ j1 hok1 => ?_
    have hj1 := (hA.parse j hj).2 _ _ hok1
    obtain ⟨hextends, hnext⟩ := hA.expandExtends hloads j1 hj1
    refine estate_bind_congr hextends fun _ j2 hok2 => ?_
    obtain ⟨hincludes, -⟩ := hA.expandIncludes hloads j2 (hnext _ _ hok2)
    exact estate_bind_congr hincludes fun _ j3 hok3 => (hdecorates hok1 hok2 hok3).1
  · intro j' hok
    obtain ⟨_, j1, hok1, hok⟩ := bind_eq_ok.mp hok
    obtain ⟨_, j2, hok2, hok⟩ := bind_eq_ok.mp hok
    obtain ⟨_, j3, hok3, hok⟩ := bind_eq_ok.mp hok
    exact (hdecorates hok1 hok2 hok3).2 j' hok

theorem loadTemplate_settles (depth : Nat) : (loadTemplate depth).Settles := by
  induction depth with
  | zero => exact ⟨fun hok => by cases hok⟩
  | succ depth ih =>
    refine ⟨fun {name place s s' d} hok => ?_⟩
    obtain ⟨source, s1, -, hok⟩ := bind_eq_ok.mp hok
    obtain ⟨s2, hok⟩ := reading_eq_ok hok
    have hstable : Session.Stable fun _ => True := fun _ _ => trivial
    obtain ⟨-, hsettled⟩ := assemble_alike (j := ⟨s1.enter name, ofSource name source⟩) hstable
      (loadTemplate_resumes depth) ih (fun _ _ _ _ => rfl)
      ⟨0, loadTemplate 0, 0, loadTemplate 0, 0, fun _ => pure ()⟩ trivial
      (grove_ofSource name source)
    exact hsettled _ (onSource_eq_ok hok)

end

def Library.names (files : List (String × Option String)) : List String :=
  (files.map Prod.fst).dedup

/-- The session has a listing of templates, and each of those that are being read is one of them and
is being read once. -/
structure Session.Reads (files : List (String × Option String)) (s : Session) : Prop where
  templates_eq : s.templates = .listing files
  nodup : s.loading.Nodup
  subset : s.loading ⊆ Library.names files

namespace Session.Reads

variable {s' : Session} {name source : String}
  {place : Place}

theorem length_le (h : s.Reads files) : s.loading.length ≤ (Library.names files).length :=
  (h.nodup.subperm h.subset).length_le

theorem resumes (h : s.Reads files) (hr : s.Resumes s') : s'.Reads files :=
  ⟨hr.templates_eq.trans h.templates_eq, hr.loading_eq ▸ h.nodup, hr.loading_eq ▸ h.subset⟩

theorem mem_names (h : s.Reads files) (hok : SessionM.load name place s = .ok source s') :
    name ∈ Library.names files := by
  obtain ⟨_, s1, hmodify, hok⟩ := bind_eq_ok.mp hok
  obtain ⟨_, s2, hget, hok⟩ := bind_eq_ok.mp hok
  cases hget
  cases hmodify
  have htemplates : (s.depend name).templates = .listing files :=
    (s.resumes_depend name).templates_eq.trans h.templates_eq
  rw [htemplates, Library.listing] at hok
  dsimp only at hok
  cases hfile : files.lookup name with
  | none => rw [hfile] at hok; cases hok
  | some content =>
    obtain ⟨before, after, heq, -⟩ := lookup_eq_some_iff.mp hfile
    rw [Library.names, mem_dedup, heq]
    simp

theorem enter (h : s.Reads files) (hname : name ∈ Library.names files) (hnew : name ∉ s.loading) :
    (s.enter name).Reads files where
  templates_eq := h.templates_eq
  nodup := nodup_append.mpr ⟨h.nodup, nodup_singleton _, fun a ha b hb => by
    rw [mem_singleton.mp hb]
    exact fun heq => hnew (heq ▸ ha)⟩
  subset := append_subset.mpr ⟨h.subset, by simpa using hname⟩

end Session.Reads

/-- The session has so many templates left to be read inside those that are being read that `depth`
levels are enough. -/
def Session.Deep (files : List (String × Option String)) (depth : Nat) (s : Session) : Prop :=
  s.Reads files ∧ (Library.names files).length < depth + s.loading.length

theorem stable_deep (depth depth' : Nat) :
    Session.Stable fun s => s.Deep files depth ∧ s.Deep files depth' := by
  rintro s s' ⟨h, h'⟩ hr
  refine ⟨⟨h.1.resumes hr, ?_⟩, h'.1.resumes hr, ?_⟩
  · rw [hr.loading_eq]
    exact h.2
  · rw [hr.loading_eq]
    exact h'.2

theorem Session.Deep.pos {depth : Nat} (h : s.Deep files depth) : depth ≠ 0 := by
  rintro rfl
  have := h.1.length_le
  have := h.2
  omega

theorem loadTemplate_agree_within (m : Limits) (hmost : (Library.names files).length ≤ m.most)
    (depth depth' : Nat) : Template.Loader.AgreeOn
      (fun s => s.Deep files depth ∧ s.Deep files depth') (loadTemplate depth) (m.load depth') := by
  induction depth generalizing depth' with
  | zero => exact fun name place s ⟨h, _⟩ => absurd rfl h.pos
  | succ depth ih =>
    rintro name place s ⟨h, h'⟩
    obtain ⟨depth', rfl⟩ := Nat.exists_eq_succ_of_ne_zero h'.pos
    rw [loadTemplate, Limits.load]
    refine estate_bind_congr rfl fun source s1 hok => ?_
    have hload : s.Resumes s1 := (SessionM.load_resumes name place s).ok source s1 hok
    by_cases hmem : s1.loading.contains name = true
    · rw [SessionM.reading, SessionM.reading, if_pos hmem, if_pos hmem]
    · have hnew : name ∉ s1.loading := fun hmem' => hmem (contains_iff_mem.mpr hmem')
      have hread := (h.1.resumes hload).enter (h.1.mem_names hok) hnew
      have hlen : (s1.enter name).loading.length = s.loading.length + 1 := by
        rw [Session.enter, length_append, hload.loading_eq]
        rfl
      have hdeep : ∀ {k}, (Library.names files).length < k + 1 + s.loading.length →
          (s1.enter name).Deep files k := fun hk => ⟨hread, by rw [hlen]; omega⟩
      refine SessionM.reading_congr ?_
      rw [get_bind, if_pos (le_trans hread.length_le hmost)]
      exact onSource_congr (assemble_alike (stable_deep depth depth') (loadTemplate_resumes depth)
        (loadTemplate_settles depth) (ih depth') m ⟨hdeep h.2, hdeep h'.2⟩
        (grove_ofSource name source)).1

/-- Compiling with a listing of templates comes to an end, with a text or an error, without reaching
any of the limits: it is the same as compiling with any other limits that are not below those, whatever
is done beyond them. At no time are more templates being read than the listing has names. If there is an
error, it is none of a scan that does not move on. -/
theorem compiling_stays_within (path source : String) (s : Session) (m : Limits)
    (hs : s.templates = .listing files) (hnone : s.loading = [])
    (hdepth : (Library.names files).length < m.depth) (hmost : (Library.names files).length ≤ m.most) :
    compileTemplate path source s = compileWithin m path source s ∧
      ∀ e s', compileTemplate path source s = .error e s' → Run.Ends e := by
  have hreads : s.Reads files := ⟨hs, by rw [hnone]; exact List.nodup_nil, by simp [hnone]⟩
  have hcapacity : (Library.names files).length ≤ files.length := by
    rw [Library.names]
    exact le_trans (List.dedup_sublist _).length_le (by rw [List.length_map])
  have hloader : s.loader = loadTemplate (files.length + 1) := by
    rw [Session.loader, hs]
    rfl
  refine ⟨estate_bind_congr ?_ fun _ _ _ => rfl, fun e s' he =>
    ((compileTemplate_resumes path source s).error e s' he).2⟩
  rw [parseTemplate, parseWithin, get_bind, hloader]
  refine onSource_congr (estate_bind_congr ?_ fun _ _ _ => rfl)
  refine (assemble_alike (stable_deep (files.length + 1) m.depth) (loadTemplate_resumes _)
    (loadTemplate_settles _) ?_ m ⟨⟨hreads, ?_⟩, hreads, ?_⟩ (grove_ofSource path source)).1
  · exact loadTemplate_agree_within m hmost _ _
  · omega
  · omega

/-- Templates that include, extend and decorate each other and themselves. -/
def knottedFiles : List (String × Option String) :=
  [("a", some "\x7b% include \"b\" %\x7d"),
    ("b", some "\x7b% extends \"a\" %\x7d\x7b% block x %\x7d\x7b% endblock %\x7d"),
    ("c", some "\x7b% decorate \"c\" %\x7d\x7b% include \"a\" %\x7d\x7b% enddecorate %\x7d")]

theorem compiling_stays_within_knottedFiles : (Library.names knottedFiles).length = 3 ∧
    (∀ tooDeep tooMany tooNested,
      compileTemplate "page" "\x7b% decorate \"c\" %\x7d\x7b% enddecorate %\x7d"
          { templates := .listing knottedFiles } =
        compileWithin ⟨4, tooDeep, 3, tooMany, 0, tooNested⟩ "page"
          "\x7b% decorate \"c\" %\x7d\x7b% enddecorate %\x7d" { templates := .listing knottedFiles }) ∧
    ∀ e s', compileTemplate "page" "\x7b% decorate \"c\" %\x7d\x7b% enddecorate %\x7d"
      { templates := .listing knottedFiles } = .error e s' → Run.Ends e :=
  have hnames : (Library.names knottedFiles).length = 3 := by decide
  have h := fun tooDeep tooMany tooNested => compiling_stays_within "page"
    "\x7b% decorate \"c\" %\x7d\x7b% enddecorate %\x7d" { templates := .listing knottedFiles }
    ⟨4, tooDeep, 3, tooMany, 0, tooNested⟩ rfl rfl (hnames ▸ Nat.lt_succ_self 3) (le_of_eq hnames)
  ⟨hnames, fun _ _ _ => (h _ _ _).1, (h (loadTemplate 0) (loadTemplate 0) fun _ => pure ()).2⟩

end Stencil
