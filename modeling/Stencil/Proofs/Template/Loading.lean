import Stencil.Proofs.Template.Faults
import Stencil.Proofs.Work

/-!
# What loading leaves behind

While templates are loaded, the session keeps a list of those that are being read. A template is put on
the list before it is read and taken off when it has been read, whether that succeeds or not. So **each
part of a compilation leaves the list as it was, and only adds to the templates asked for**
(`Session.Resumes`), and if it stops this is not for lack of steps (`Resuming`).
-/

namespace Stencil

open Document List

variable {α β σ : Type}

/-- Does work with a journal on the document of a source file and gives the document. -/
def Noting.onSource {γ : Type} (path source : String) (w : Noting Error Job γ Unit) :
    Noting Error Session γ Document where
  run := Stencil.onSource path source w.run
  noted session := w.noted { session, document := ofSource path source }

namespace Session

/-- The list of templates that are being read is as before, so is the library, and the templates
asked for have at most become more, each still once. -/
structure Resumes (s s' : Session) : Prop where
  loading_eq : s'.loading = s.loading
  templates_eq : s'.templates = s.templates
  dependencies_prefix : s.dependencies <+: s'.dependencies
  dependencies_nodup : s.dependencies.Nodup → s'.dependencies.Nodup

variable {s s' s'' : Session}

theorem Resumes.refl (s : Session) : s.Resumes s := ⟨rfl, rfl, prefix_rfl, id⟩

theorem Resumes.trans (h : s.Resumes s') (h' : s'.Resumes s'') : s.Resumes s'' where
  loading_eq := h'.loading_eq.trans h.loading_eq
  templates_eq := h'.templates_eq.trans h.templates_eq
  dependencies_prefix := h.dependencies_prefix.trans h'.dependencies_prefix
  dependencies_nodup := h'.dependencies_nodup ∘ h.dependencies_nodup

theorem resumes_depend (s : Session) (name : String) : s.Resumes (s.depend name) := by
  rw [depend]
  split_ifs with h
  · exact .refl s
  · refine ⟨rfl, rfl, prefix_append _ _, fun hn => ?_⟩
    have hmem : name ∉ s.dependencies := fun hmem => h (contains_iff_mem.mpr hmem)
    exact nodup_append.mpr ⟨hn, nodup_singleton _, fun a ha b hb => by
      rw [mem_singleton.mp hb]
      exact fun heq => hmem (heq ▸ ha)⟩

end Session

/-- A state with a session in it. -/
class HasSession (σ : Type) where
  session : σ → Session

instance : HasSession Session := ⟨id⟩

instance : HasSession Job := ⟨Job.session⟩

/-- However the computation ends, it resumes the session it started with; if it stops, then not because
rules never move on. -/
def Resuming [HasSession σ] (x : EStateM Error σ α) : Prop :=
  ∀ s, Yields x s (fun _ s' => (HasSession.session s).Resumes (HasSession.session s'))
    fun e s' => (HasSession.session s).Resumes (HasSession.session s') ∧ Run.Ends e

namespace Resuming

section

variable [HasSession σ]

theorem after {x : EStateM Error σ α} (h : Resuming x) (s : σ) :
    (HasSession.session s).Resumes (HasSession.session (Stencil.after x s)) :=
  ((h s).mono (fun _ _ hs => hs) fun _ _ hs => hs.1).after

theorem from_later {x : EStateM Error σ α} (h : Resuming x) {s s' : σ}
    (hs : (HasSession.session s).Resumes (HasSession.session s')) :
    Yields x s' (fun _ t => (HasSession.session s).Resumes (HasSession.session t))
      fun e t => (HasSession.session s).Resumes (HasSession.session t) ∧ Run.Ends e :=
  (h s').mono (fun _ _ ht => hs.trans ht) fun _ _ ht => ⟨hs.trans ht.1, ht.2⟩

theorem bind {x : EStateM Error σ α} {f : α → EStateM Error σ β} (hx : Resuming x)
    (hf : ∀ a, Resuming (f a)) : Resuming (x >>= f) := fun s =>
  (hx s).bind fun a _ hs => (hf a).from_later hs

theorem pure (a : α) : Resuming (Pure.pure a : EStateM Error σ α) := fun _ => .pure (.refl _)

theorem throw {e : Error} (h : Run.Ends e := by simp [Run.Ends, Error.IsFault]) : Resuming (throw e : EStateM Error σ α) := fun _ =>
  .throw ⟨.refl _, h⟩

theorem get : Resuming (get : EStateM Error σ σ) := fun s => .of_ok (t := s) rfl (.refl _)

theorem forM {f : α → EStateM Error σ PUnit} (hf : ∀ a, Resuming (f a)) (l : List α) :
    Resuming (l.forM f) := by
  induction l with
  | nil => exact .pure PUnit.unit
  | cons a l ih => exact (hf a).bind fun _ => ih

theorem mapM {f : α → EStateM Error σ β} (hf : ∀ a, Resuming (f a)) (l : List α) :
    Resuming (l.mapM f) := by
  induction l with
  | nil => exact .pure []
  | cons a l ih =>
    rw [mapM_cons]
    exact (hf a).bind fun _ => ih.bind fun _ => .pure _

end

theorem modify {f : Session → Session} (hf : ∀ s : Session, s.Resumes (f s)) :
    Resuming (modify f : SessionM Unit) := fun s => .of_ok (t := f s) rfl (hf s)

theorem document : Resuming Work.document := Resuming.get.bind fun _ => .pure _

theorem options : Resuming Work.options := Resuming.get.bind fun _ => .pure _

theorem apply (f : Document → Document) : Resuming (Work.apply f) := fun j =>
  .of_ok (t := { j with document := f j.document }) rfl (.refl j.session)

theorem perform (f : Document → α × Document) : Resuming (Work.perform f) := fun j =>
  .of_ok (t := { j with document := (f j.document).2 }) rfl (.refl j.session)

theorem edit {x : Edit α} (hx : Edit.Ends x) : Resuming (Work.edit x) := fun j => by
  cases h : x j.document with
  | ok a d =>
    have hj : Work.edit x j = .ok a { j with document := d } := by rw [Work.edit, h]
    exact .of_ok hj (.refl j.session)
  | error e d =>
    have hj : Work.edit x j = .error e { j with document := d } := by rw [Work.edit, h]
    exact .of_error hj ⟨.refl j.session, (hx _).error e d h⟩

theorem task {t : SessionM α} (ht : Resuming t) : Resuming (Work.task t) := fun j => by
  cases h : t j.session with
  | ok a s =>
    have hj : Work.task t j = .ok a { j with session := s } := by rw [Work.task, h]
    exact .of_ok hj ((ht _).ok a s h)
  | error e s =>
    have hj : Work.task t j = .error e { j with session := s } := by rw [Work.task, h]
    exact .of_error hj ((ht _).error e s h)

theorem onlyIf {w : Work Unit} (hw : Resuming w) (switch : Bool) : Resuming (Work.onlyIf switch w) := by
  cases switch with
  | true => exact hw
  | false => exact .pure ()

end Resuming

namespace SessionM

theorem loaded_resumes (name : String) (place : Place) (r : Except LoadFault String) :
    Resuming (loaded name place r) := by
  cases r with
  | ok content => exact .pure content
  | error fault => exact .throw

theorem load_resumes (name : String) (place : Place) : Resuming (load name place) :=
  (Resuming.modify fun s => s.resumes_depend name).bind fun _ =>
    Resuming.get.bind fun _ => loaded_resumes name place _

theorem loadMedia_resumes (url : String) (place : Place) : Resuming (loadMedia url place) :=
  Resuming.get.bind fun _ => loaded_resumes url place _

theorem reading_resumes {name : String} {place : Place} {t : SessionM α} (ht : Resuming t) :
    Resuming (reading name place t) := by
  intro s
  have hleave : ∀ {s' : Session}, (s.enter name).Resumes s' → s.Resumes s'.leave := fun h =>
    ⟨by rw [Session.leave, h.loading_eq, Session.enter, dropLast_concat], h.templates_eq,
      h.dependencies_prefix, h.dependencies_nodup⟩
  by_cases hc : s.loading.contains name = true
  · refine .congr (if_pos hc) (.throw ⟨.refl s, ?_⟩)
    simp [Run.Ends, Error.IsFault]
  · cases h : t (s.enter name) with
    | ok a s' =>
      have hs : reading name place t s = .ok a s'.leave := by rw [reading, if_neg hc, h]
      exact .of_ok hs (hleave ((ht _).ok a s' h))
    | error e s' =>
      have hs : reading name place t s = .error e s'.leave := by rw [reading, if_neg hc, h]
      obtain ⟨hr, he⟩ := (ht _).error e s' h
      exact .of_error hs ⟨hleave hr, he⟩

theorem cached_resumes (key : Key) (compute : Unit → Except Error String) :
    Resuming (cached key compute) := fun _ => .of_ok rfl ⟨rfl, rfl, prefix_rfl, id⟩

/-- An error under a key is one of the computation. -/
theorem cached_bind_resumes {key : Key} {compute : Unit → Except Error String}
    {f : Except Error String → SessionM α}
    (hf : ∀ r, (∀ e, r = .error e → compute () = .error e) → Resuming (f r)) :
    Resuming (cached key compute >>= f) := fun s => by
  refine .bind_ok rfl ((hf (s.cache.fetch key compute).1 fun e he => ?_).from_later
    ⟨rfl, rfl, prefix_rfl, id⟩)
  rw [Cache.fetch, Cache.fetchM] at he
  cases hget : s.cache.get? key with
  | some content => rw [hget] at he; cases he
  | none =>
    rw [hget] at he
    cases hc : compute () with
    | ok content => rw [hc] at he; cases he
    | error e' => rw [hc] at he; cases he; rfl

end SessionM

/-- Something that is shown of two works from a state on is shown part by part. -/
structure Along (A : ∀ {α : Type}, Work α → Work α → Job → Prop) : Prop where
  pure : ∀ {α : Type} (a : α) (j : Job), A (pure a) (pure a) j
  bind : ∀ {α β : Type} {w w' : Work α} {f f' : α → Work β} {j : Job}, A w w' j →
    (∀ a j', w j = .ok a j' → A (f a) (f' a) j') → A (w >>= f) (w' >>= f') j
  document : ∀ {α : Type} {f f' : Document → Work α} {j : Job}, A (f j.document) (f' j.document) j →
    A (Work.document >>= f) (Work.document >>= f') j

/-- It is also shown of changes to the document, of errors and of reports. -/
structure AlongEdits (A : ∀ {α : Type}, Work α → Work α → Job → Prop) : Prop extends Along A where
  throw : ∀ {α : Type} (place : Place) (fault : TemplateFault) (j : Job),
    A (throw (.template place fault) : Work α) (throw (.template place fault)) j
  apply : ∀ (f : Document → Document) (j : Job), A (Work.apply f) (Work.apply f) j
  perform : ∀ {α : Type} (f : Document → α × Document) (j : Job), A (Work.perform f) (Work.perform f) j
  parse : ∀ j : Job, A (Work.edit Template.parse) (Work.edit Template.parse) j
  report : ∀ (child : Document) (id : NodeId) (j : Job),
    A (Work.task (Template.reportOrphan child id)) (Work.task (Template.reportOrphan child id)) j

section

variable {A : ∀ {α : Type}, Work α → Work α → Job → Prop} {j : Job}

theorem Along.forM (hA : Along A) {f g : NodeId → Work PUnit}
    {Q : List NodeId → List NodeId → Job → Prop} {l : List NodeId}
    (hstep : ∀ {P us : List NodeId} {t : NodeId} {j : Job}, P ++ t :: us = l → Q P (t :: us) j →
      A (f t) (g t) j ∧ ∀ j', f t j = .ok ⟨⟩ j' → Q (P ++ [t]) us j') (hj : Q [] l j) :
    A (l.forM f) (l.forM g) j ∧ ∀ j', l.forM f j = .ok ⟨⟩ j' → Q l [] j' := by
  suffices key : ∀ {us P : List NodeId} {j : Job}, P ++ us = l → Q P us j →
      A (us.forM f) (us.forM g) j ∧ ∀ j', us.forM f j = .ok ⟨⟩ j' → Q l [] j' from
    key (nil_append l) hj
  intro us
  induction us with
  | nil =>
    intro P j hP hinv
    rw [append_nil] at hP
    refine ⟨hA.pure _ _, fun j' hok => ?_⟩
    obtain ⟨-, rfl⟩ := pure_eq_ok.mp hok
    exact hP ▸ hinv
  | cons t us ih =>
    intro P j hP hinv
    have hP' : P ++ [t] ++ us = l := by rw [← hP, append_assoc]; rfl
    obtain ⟨hfirst, hnext⟩ := hstep hP hinv
    refine ⟨hA.bind hfirst fun _ j1 hok => (ih hP' (hnext j1 hok)).1, fun j' hok => ?_⟩
    obtain ⟨_, j1, hok1, hok⟩ := bind_eq_ok.mp hok
    exact (ih hP' (hnext j1 hok1)).2 j' hok

theorem Work.task_bind_eq (t : SessionM α) (f : α → SessionM β) :
    Work.task (t >>= f) = Work.task t >>= fun a => Work.task (f a) := by
  funext j
  show Work.task (EStateM.bind t f) j = EStateM.bind (Work.task t) (fun a => Work.task (f a)) j
  rw [Work.task, EStateM.bind, EStateM.bind, Work.task]
  cases t j.session <;> rfl

namespace AlongEdits

open Template

variable {load g : Loader} (hA : AlongEdits A)
  (hl : ∀ name place j, A (Work.task (load name place)) (Work.task (g name place)) j)
include hA

theorem forM_all {f g : NodeId → Work PUnit} (hfg : ∀ x j, A (f x) (g x) j) (l : List NodeId)
    (j : Job) : A (l.forM f) (l.forM g) j :=
  (hA.forM (Q := fun _ _ _ => True) (fun _ _ => ⟨hfg _ _, fun _ _ => trivial⟩) trivial).1

include hl

theorem extend (child : Document) (j : Job) :
    A (Work.task (extend load child)) (Work.task (Template.extend g child)) j := by
  rw [Template.extend, Template.extend]
  cases (topNodes child [.extendsTag]).head? with
  | none => exact hA.pure child j
  | some tag =>
    dsimp only
    cases literalArgument? child tag 1 with
    | none => exact hA.throw _ _ j
    | some name =>
      dsimp only
      rw [Work.task_bind_eq, Work.task_bind_eq]
      refine hA.bind (hl _ _ j) fun base j1 _ => ?_
      cases orphan? child base with
      | none => exact hA.pure _ j1
      | some id =>
        dsimp only
        rw [Work.task_bind_eq]
        exact hA.bind (hA.report child id j1) fun _ j2 _ => hA.pure _ j2

theorem expandExtends (j : Job) : A (expandExtends load) (Template.expandExtends g) j :=
  hA.document (hA.bind (hA.extend hl _ j) fun _ j1 _ => hA.apply _ j1)

theorem expandInclude (id : NodeId) (j : Job) :
    A (expandInclude load id) (Template.expandInclude g id) j := by
  refine hA.document ?_
  cases includedName? j.document id with
  | none => exact hA.pure _ j
  | some name => exact hA.bind (hl _ _ j) fun _ j1 _ => hA.apply _ j1

theorem expandIncludes (j : Job) : A (expandIncludes load) (Template.expandIncludes g) j :=
  hA.document (hA.forM_all (hA.expandInclude hl) _ j)

theorem expandDecorate (id : NodeId) (j : Job) :
    A (expandDecorate load id) (Template.expandDecorate g id) j := by
  refine hA.document ?_
  cases literalArgument? j.document id 1 with
  | none => exact hA.throw _ _ j
  | some name =>
    exact hA.bind (hl _ _ j) fun _ j1 _ => hA.bind (hA.perform _ j1) fun node j2 _ =>
      hA.bind (hA.apply _ j2) fun _ j3 _ => hA.pure node j3

theorem expandDecoratesBelow (levels : Nat) (id : NodeId) (j : Job) :
    A (expandDecoratesBelow load levels id) (Template.expandDecoratesBelow g levels id) j := by
  induction levels generalizing id j with
  | zero => exact hA.pure () j
  | succ levels ih =>
    refine hA.document (hA.forM_all (fun tag j => ?_) _ j)
    exact hA.bind (hA.expandDecorate hl tag j) fun node j1 _ => ih node j1

theorem assemble (j : Job) : A (assemble load) (Stencil.assemble g) j :=
  hA.bind (hA.parse j) fun _ j1 _ => hA.bind (hA.expandExtends hl j1) fun _ j2 _ =>
    hA.bind (hA.expandIncludes hl j2) fun _ _ _ => hA.document (hA.expandDecoratesBelow hl _ _ _)

end AlongEdits

end

namespace Template

def Loader.Resumes (load : Loader) : Prop := ∀ name place, Resuming (load name place)

theorem reportOrphan_resumes (child : Document) (id : NodeId) : Resuming (reportOrphan child id) := by
  refine Resuming.get.bind fun s => ?_
  split_ifs
  · exact .throw
  · exact .modify fun s => ⟨rfl, rfl, prefix_rfl, fun h => h⟩

theorem resumes_along : AlongEdits fun w _ (j : Job) =>
    Yields w j (fun _ j' => j.session.Resumes j'.session)
      fun e j' => j.session.Resumes j'.session ∧ Run.Ends e where
  pure a j := Resuming.pure a j
  bind h hf := h.self.bind fun a j1 h1 => (hf a j1 h1.1).mono (fun _ _ h2 => h1.2.trans h2)
    fun _ _ h2 => ⟨h1.2.trans h2.1, h2.2⟩
  document h := .congr (Work.document_bind _) h
  throw place fault j := .throw ⟨.refl j.session, by simp [Run.Ends, Error.IsFault]⟩
  apply f j := Resuming.apply f j
  perform f j := Resuming.perform f j
  parse j := Resuming.edit parse_ends j
  report child id j := Resuming.task (reportOrphan_resumes child id) j

end Template

theorem assemble_resumes {load : Template.Loader} (hl : load.Resumes) : Resuming (assemble load) :=
  Template.resumes_along.assemble (g := load) fun name place => Resuming.task (hl name place)

theorem onSource_resumes {w : Work Unit} (hw : Resuming w) (path source : String) :
    Resuming (onSource path source w) := fun s => by
  cases h : w { session := s, document := ofSource path source } with
  | ok a j =>
    have hs : onSource path source w s = .ok j.document j.session := by rw [onSource, h]
    exact .of_ok hs ((hw _).ok a j h)
  | error e j =>
    have hs : onSource path source w s = .error e j.session := by rw [onSource, h]
    exact .of_error hs ((hw _).error e j h)

theorem loadTemplate_resumes (depth : Nat) : (loadTemplate depth).Resumes := by
  induction depth with
  | zero => exact fun name place => .throw
  | succ depth ih =>
    exact fun name place => (SessionM.load_resumes name place).bind fun source =>
      SessionM.reading_resumes (onSource_resumes (assemble_resumes ih) name source)

namespace Template

theorem changeOption_resumes (place : Place) (name : String) : Resuming (changeOption place name) := by
  refine fun s => .bind_ok rfl ?_
  split
  · exact .of_ok rfl ⟨rfl, rfl, prefix_rfl, id⟩
  · exact .throw ⟨.refl s, by simp [Run.Ends, Error.IsFault]⟩

theorem applyConfig_resumes : Resuming applyConfig :=
  Resuming.document.bind fun _ => .forM (fun _ => .forM
    (fun _ => Resuming.task (changeOption_resumes _ _)) _) _

end Template

section

variable {l : Language} (hl : l.Ends)
include hl

theorem Region.compile_resumes (id : NodeId) : Resuming (Region.compile l id) := by
  refine (Resuming.apply _).bind fun _ => Resuming.document.bind fun d => ?_
  split
  · exact .edit (hl _ _ _)
  · refine (Resuming.task (SessionM.cached_resumes _ _)).bind fun result => ?_
    split
    · exact .apply _
    · exact .edit (hl _ _ _)

theorem Language.compileFile_resumes (path source : String) : Resuming (l.compileFile path source) := by
  refine SessionM.cached_bind_resumes fun result hr => ?_
  cases result with
  | ok compiled => exact .pure _
  | error e => exact .throw (hl.compileSource (hr e rfl))

end

namespace Markup

theorem compileMedia_resumes (type : MediaType) (file : MediaFile) :
    Resuming (compileMedia type file) :=
  (SessionM.loadMedia_resumes _ _).bind fun _ => Language.compileFile_resumes (type.language_ends _) _ _

theorem makeBundle_resumes (type : MediaType) (files : List MediaFile) :
    Resuming (makeBundle type files) := by
  refine (Resuming.mapM (compileMedia_resumes type) files).bind fun compiled =>
    Resuming.get.bind fun s => SessionM.cached_bind_resumes fun result hr => ?_
  cases result with
  | ok content => exact .pure _
  | error e => cases hr e rfl

theorem addBundle_resumes (b : Bundle) : Resuming (modify (·.addBundle b) : SessionM Unit) :=
  .modify fun _ => ⟨rfl, rfl, prefix_rfl, id⟩

theorem bundleScripts_resumes (id : NodeId) : Resuming (bundleScripts id) := by
  refine Resuming.options.bind fun o => Resuming.document.bind fun d => ?_
  split
  · exact .pure _
  · exact (Resuming.task (makeBundle_resumes _ _)).bind fun b =>
      (Resuming.apply _).bind fun _ => .task (addBundle_resumes b)

theorem bundleRun_resumes (run : List StylesheetLink) : Resuming (bundleRun run) := by
  rw [bundleRun]
  split
  · exact .pure _
  · exact (Resuming.task (makeBundle_resumes _ _)).bind fun b =>
      (Resuming.apply _).bind fun _ => (Resuming.task (addBundle_resumes b)).bind fun _ =>
        .pure _

theorem bundleStylesheets_resumes (id : NodeId) : Resuming (bundleStylesheets id) :=
  Resuming.options.bind fun _ => Resuming.document.bind fun _ =>
    (Resuming.mapM bundleRun_resumes _).bind fun _ => .apply _

theorem compileScripts_resumes : Resuming compileScripts :=
  Resuming.document.bind fun _ => .forM (fun _ => Resuming.document.bind fun _ =>
    .onlyIf (Region.compile_resumes Script.language_ends _) _) _

theorem compileStyles_resumes : Resuming compileStyles :=
  Resuming.document.bind fun _ => .forM (Region.compile_resumes (Stylesheet.language_ends _)) _

theorem packScripts_resumes : Resuming packScripts :=
  Resuming.document.bind fun _ => .forM bundleScripts_resumes _

theorem packStylesheets_resumes : Resuming packStylesheets :=
  Resuming.document.bind fun _ => .forM bundleStylesheets_resumes _

theorem process_resumes : Resuming process :=
  Resuming.options.bind fun _ => (Resuming.edit lex_ends).bind fun _ =>
    ((Resuming.apply _).onlyIf _).bind fun _ => (Resuming.edit nest_ends).bind fun _ =>
    (Resuming.apply _).bind fun _ => (Resuming.apply _).bind fun _ =>
    ((Resuming.apply _).onlyIf _).bind fun _ => ((Resuming.apply _).onlyIf _).bind fun _ =>
    (packScripts_resumes.onlyIf _).bind fun _ => (packStylesheets_resumes.onlyIf _).bind fun _ =>
    (compileScripts_resumes.onlyIf _).bind fun _ => (compileStyles_resumes.onlyIf _).bind fun _ =>
    (Resuming.apply _).onlyIf _

end Markup

theorem finishTemplate_resumes : Resuming finishTemplate :=
  Template.applyConfig_resumes.bind fun _ => Resuming.options.bind fun _ =>
    ((Resuming.apply _).onlyIf _).bind fun _ => ((Resuming.apply _).onlyIf _).bind fun _ =>
    ((Resuming.apply _).onlyIf _).bind fun _ => ((Resuming.apply _).onlyIf _).bind fun _ =>
    ((Resuming.apply _).onlyIf _).bind fun _ => (Resuming.apply _).bind fun _ =>
    Markup.process_resumes.onlyIf _

theorem parseTemplate_resumes (path source : String) (main : Bool) :
    Resuming (parseTemplate path source main) :=
  Resuming.get.bind fun _ => onSource_resumes
    ((assemble_resumes (loadTemplate_resumes _)).bind fun _ => finishTemplate_resumes.onlyIf main)
    path source

theorem compileTemplate_resumes (path source : String) : Resuming (compileTemplate path source) :=
  (parseTemplate_resumes path source true).bind fun _ => .pure _

end Stencil
