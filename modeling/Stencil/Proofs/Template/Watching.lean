import Stencil.Proofs.Template.Loading

/-!
# Templates inside templates

Whether a template is read inside itself is decided by the list that the session keeps. It could also be
decided by the calls alone: each call of the loader knows which templates it has been called from.
`loadWatched` is such a loader. It also raises an alarm if the list of the session is not what it should
be, or has a name twice. **No alarm is ever raised, and compiling is the same with either loader**
(`loading_restored`), because each part of a compilation leaves the list as it was.
-/

namespace Stencil

open Document List

variable {j : Job} {I : Session → Prop} {α : Type}

theorem estate_bind_congr {ε σ β : Type} {x y : EStateM ε σ α} {f g : α → EStateM ε σ β} {s : σ}
    (hxy : x s = y s) (hfg : ∀ a s', x s = .ok a s' → f a s' = g a s') : (x >>= f) s = (y >>= g) s := by
  show EStateM.bind x f s = EStateM.bind y g s
  rw [EStateM.bind, EStateM.bind, ← hxy]
  cases hx : x s with
  | ok a s' => exact hfg a s' hx
  | error e s' => rfl

theorem Work.task_congr {t t' : SessionM α} (h : t j.session = t' j.session) :
    Work.task t j = Work.task t' j := by
  rw [Work.task, Work.task, h]

theorem SessionM.reading_congr {t t' : SessionM α} {name : String} {place : Place}
    {s : Session} (h : t (s.enter name) = t' (s.enter name)) :
    SessionM.reading name place t s = SessionM.reading name place t' s := by
  rw [SessionM.reading, SessionM.reading, h]

theorem onSource_congr {w w' : Work Unit} {path source : String} {s : Session}
    (h : w { session := s, document := ofSource path source } =
      w' { session := s, document := ofSource path source }) :
    onSource path source w s = onSource path source w' s := by
  rw [onSource, onSource, h]

/-- The property of sessions is kept by what a compilation does to them. -/
def Session.Stable (I : Session → Prop) : Prop :=
  ∀ {s s' : Session}, I s → s.Resumes s' → I s'

theorem Session.Stable.next (hI : Session.Stable I) {w : Work α}
    (hw : Resuming w) {j' : Job} {a : α} (hj : I j.session) (hok : w j = .ok a j') : I j'.session :=
  hI hj ((hw j).ok a j' hok)

namespace Template

/-- Two loaders do the same in all sessions with a property. -/
def Loader.AgreeOn (I : Session → Prop) (load load' : Loader) : Prop :=
  ∀ name place s, I s → load name place s = load' name place s

variable {load load' : Loader}

theorem Loader.AgreeOn.task (h : Loader.AgreeOn I load load') (hI : Session.Stable I)
    (hl : load.Resumes) (name : String) (place : Place) (j : Job) (hj : I j.session) :
    Work.task (load name place) j = Work.task (load' name place) j ∧
      ∀ d j', Work.task (load name place) j = .ok d j' → I j'.session :=
  ⟨Work.task_congr (h name place j.session hj), fun _ _ hok => hI.next (.task (hl name place)) hj hok⟩

theorem agree_along (hI : Session.Stable I) : AlongEdits fun w w' (j : Job) => I j.session →
    w j = w' j ∧ ∀ a j', w j = .ok a j' → I j'.session where
  pure a j hj := ⟨rfl, fun _ _ hok => hI.next (.pure a) hj hok⟩
  bind h hf hj := by
    obtain ⟨heq, hnext⟩ := h hj
    refine ⟨estate_bind_congr heq fun a j' hok => (hf a j' hok (hnext a j' hok)).1, fun b j' hok => ?_⟩
    obtain ⟨a, j1, hok1, hok⟩ := bind_eq_ok.mp hok
    exact (hf a j1 hok1 (hnext a j1 hok1)).2 b j' hok
  document h := h
  throw place fault j hj := ⟨rfl, fun _ _ hok => by cases hok⟩
  apply f j hj := ⟨rfl, fun _ _ hok => hI.next (.apply f) hj hok⟩
  perform f j hj := ⟨rfl, fun _ _ hok => hI.next (.perform f) hj hok⟩
  parse j hj := ⟨rfl, fun _ _ hok => hI.next (.edit parse_ends) hj hok⟩
  report child id j hj := ⟨rfl, fun _ _ hok => hI.next (.task (reportOrphan_resumes child id)) hj hok⟩

end Template

theorem assemble_congr {load load' : Template.Loader} (hI : Session.Stable I)
    (hl : load.Resumes) (h : Template.Loader.AgreeOn I load load') (hj : I j.session) :
    assemble load j = assemble load' j :=
  ((Template.agree_along hI).assemble (h.task hI hl) j hj).1

/-- Loads a template that is referred to inside the templates `around`, the outermost first. A template
that is one of them is refused, whatever the session says. If the session's list does not show just
these and the template itself when it is read, or shows one of them twice, `alarm` decides what is loaded. -/
def loadWatched (alarm : Template.Loader) :
    (depth : Nat) → (around : List String) → Template.Loader
  | 0, _, name, place => throw (.template place (.tooDeep name))
  | depth + 1, around, name, place => do
    let source ← SessionM.load name place
    if name ∈ around then throw (.template place (.includesItself name))
    else SessionM.reading name place do
      let s ← get
      if s.loading = around ++ [name] ∧ s.loading.Nodup then
        onSource name source (assemble (loadWatched alarm depth (around ++ [name])))
      else alarm name place

def parseWatched (alarm : Template.Loader) (around : List String) (path source : String)
    (main : Bool) : SessionM Document := do
  let depth := (← get).templates.capacity + 1
  onSource path source do
    assemble (loadWatched alarm depth around)
    Work.onlyIf main finishTemplate

def compileWatched (alarm : Template.Loader) (around : List String) (path source : String) :
    SessionM String := do
  return (← parseWatched alarm around path source true).output

theorem stable_loading (around : List String) :
    Session.Stable fun s => s.loading = around ∧ around.Nodup :=
  fun h hr => ⟨hr.loading_eq.trans h.1, h.2⟩

theorem loadTemplate_agree_watched (alarm : Template.Loader) (depth : Nat) (around : List String) :
    Template.Loader.AgreeOn (fun s => s.loading = around ∧ around.Nodup) (loadTemplate depth)
      (loadWatched alarm depth around) := by
  induction depth generalizing around with
  | zero => exact fun name place s _ => rfl
  | succ depth ih =>
    rintro name place s ⟨rfl, hn⟩
    rw [loadTemplate, loadWatched]
    refine estate_bind_congr rfl fun source s' hok => ?_
    have hload : s.Resumes s' := (SessionM.load_resumes name place s).ok source s' hok
    by_cases hmem : name ∈ s.loading
    · have hc : s'.loading.contains name = true := by
        rw [hload.loading_eq]
        exact contains_iff_mem.mpr hmem
      rw [if_pos hmem, SessionM.reading, if_pos hc]
      rfl
    · rw [if_neg hmem]
      have hlist : (s'.enter name).loading = s.loading ++ [name] := by
        rw [Session.enter, hload.loading_eq]
      have hnodup : (s.loading ++ [name]).Nodup := nodup_append.mpr
        ⟨hn, nodup_singleton _, fun a ha b hb => by
          rw [mem_singleton.mp hb]
          exact fun heq => hmem (heq ▸ ha)⟩
      refine SessionM.reading_congr ?_
      rw [get_bind, if_pos ⟨hlist, hlist ▸ hnodup⟩]
      exact onSource_congr (assemble_congr (stable_loading _) (loadTemplate_resumes depth)
        (ih (s.loading ++ [name])) ⟨hlist, hnodup⟩)

theorem parseTemplate_eq_watched (alarm : Template.Loader) (path source : String) (main : Bool)
    {s : Session} (hs : s.loading.Nodup) :
    parseTemplate path source main s = parseWatched alarm s.loading path source main s := by
  rw [parseTemplate, parseWatched, get_bind, get_bind]
  refine onSource_congr (estate_bind_congr ?_ fun _ _ _ => rfl)
  exact assemble_congr (stable_loading s.loading) (loadTemplate_resumes _)
    (loadTemplate_agree_watched alarm _ s.loading) ⟨rfl, hs⟩

theorem compileTemplate_eq_watched (alarm : Template.Loader) (path source : String)
    {s : Session} (hs : s.loading.Nodup) :
    compileTemplate path source s = compileWatched alarm s.loading path source s :=
  estate_bind_congr (parseTemplate_eq_watched alarm path source true hs) fun _ _ _ => rfl

/-- Whichever way a template is read or compiled, at whatever depth an error arises, the session's
list of templates that are being read is as before, and the templates asked for have become more at
most at the end of their list. On the way the list is that of the templates around, each once. So in
what is compiled later, a template is said to include itself only if it does there. -/
theorem loading_restored (path source : String) (main : Bool) (s : Session) (hs : s.loading.Nodup) :
    s.Resumes (after (parseTemplate path source main) s) ∧
      s.Resumes (after (compileTemplate path source) s) ∧
      (∀ alarm, parseTemplate path source main s =
        parseWatched alarm s.loading path source main s) ∧
      (∀ alarm, compileTemplate path source s = compileWatched alarm s.loading path source s) ∧
      ∀ alarm path' source',
        compileTemplate path' source' (after (compileTemplate path source) s) =
          compileWatched alarm s.loading path' source' (after (compileTemplate path source) s) := by
  have hresumes : s.Resumes (after (compileTemplate path source) s) :=
    (compileTemplate_resumes path source).after s
  refine ⟨(parseTemplate_resumes path source main).after s, hresumes,
    fun alarm => parseTemplate_eq_watched alarm path source main hs,
    fun alarm => compileTemplate_eq_watched alarm path source hs, fun alarm path' source' => ?_⟩
  rw [← hresumes.loading_eq]
  exact compileTemplate_eq_watched alarm path' source' (hresumes.loading_eq ▸ hs)

def mutualPages : Session where
  templates := .listing [("a", some "\x7b% include \"b\" %\x7d"), ("b", some "\x7b% include \"a\" %\x7d")]

/-- Compiling a page that includes one of them stops two levels down, and then a page that includes the
other is compiled as if nothing had been. -/
theorem loading_restored_mutualPages : mutualPages.loading.Nodup ∧
    mutualPages.Resumes (after (compileTemplate "page" "\x7b% include \"a\" %\x7d") mutualPages) ∧
    ∀ alarm, compileTemplate "page" "\x7b% include \"b\" %\x7d"
        (after (compileTemplate "page" "\x7b% include \"a\" %\x7d") mutualPages) =
      compileWatched alarm [] "page" "\x7b% include \"b\" %\x7d"
        (after (compileTemplate "page" "\x7b% include \"a\" %\x7d") mutualPages) :=
  have hs : mutualPages.loading.Nodup := by decide
  have h := loading_restored "page" "\x7b% include \"a\" %\x7d" true mutualPages hs
  ⟨hs, h.2.1, fun alarm => h.2.2.2.2 alarm "page" "\x7b% include \"b\" %\x7d"⟩

end Stencil
