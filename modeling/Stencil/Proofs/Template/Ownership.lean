import Stencil.Proofs.Template.Keeping
import Stencil.Proofs.Template.Loading

/-!
# One owner after every pass

A template is read, put together with others and then goes through passes, which move and copy parts of
its document. The passes are written down here once more, with the document that each of them leaves in
the journal. **After every pass each node below the root has one owner**
(`Passes.one_owner_after_passes`): it stands in one slot of one node, and no node is below itself.
-/

namespace Stencil

open Document

variable {d : Document} {s s' : Session} {α : Type}

/-- Where the work succeeds, it leaves a tree if it started with one. -/
structure Work.KeepsTree {α : Type} (w : Work α) : Prop where
  grove : ∀ {j j' : Job} {a : α}, j.document.Grove [root] → w j = .ok a j' →
    j'.document.Grove [root]

theorem Work.Sustains.keepsTree {w : Work α} (h : Work.Sustains [root] w) : w.KeepsTree :=
  ⟨fun hg hok => (h.sustained hg hok).grove⟩

theorem Template.expandExtends_keepsTree {load : Template.Loader} (hl : load.Plants) :
    (Template.expandExtends load).KeepsTree where
  grove {j _ _} h hok := by
    rw [Template.expandExtends, Work.document_bind] at hok
    obtain ⟨d, j1, htask, hok⟩ := bind_eq_ok.mp hok
    obtain ⟨s, hextend, rfl⟩ := Work.task_eq_ok.mp htask
    obtain rfl := Work.apply_eq_ok.mp hok
    exact Template.extend_grove hl h hextend

def pass (w : Work Unit) : Noting Error Job Document Unit where
  run := w
  noted j := Journal.afterResult (fun _ j' => [j'.document]) (w j)

namespace Passes

open Noting

/-- Reads a document as a template and puts it together with the templates it refers to. -/
def assemble (load : Template.Loader) : Noting Error Job Document Unit := do
  pass (Work.edit Template.parse)
  pass (Template.expandExtends load)
  pass (Template.expandIncludes load)
  pass (Template.expandDecorates load)

def process : Noting Error Job Document Unit := do
  let o ← silent Work.options
  pass (Work.edit Markup.lex)
  pass (Work.onlyIf o.removeEmptyClassAttributes (Work.apply Markup.removeEmptyClasses))
  pass (Work.edit Markup.nest)
  pass (Work.apply Markup.commentsToText)
  pass (Work.apply (·.removeKind root .markupComment))
  pass (Work.onlyIf o.mergeInternalJavascript (Work.apply (Markup.mergeInternal .script)))
  pass (Work.onlyIf o.mergeInternalCss (Work.apply (Markup.mergeInternal .style)))
  pass (Work.onlyIf o.packExternalJavascript Markup.packScripts)
  pass (Work.onlyIf o.packExternalCss Markup.packStylesheets)
  pass (Work.onlyIf o.compileJavascript Markup.compileScripts)
  pass (Work.onlyIf o.compileCss Markup.compileStyles)
  pass (Work.onlyIf o.whitespaceCompression (Work.apply Markup.compressBlanks))

def finishTemplate : Noting Error Job Document Unit := do
  pass Template.applyConfig
  let o ← silent Work.options
  pass (Work.onlyIf o.preprocessVariables
    (Work.apply (Template.substituteVariables o.knownVariables)))
  pass (Work.onlyIf o.removeBlockTags (Work.apply (·.collapseKind root .block)))
  pass (Work.onlyIf o.preprocessMacros (Work.apply Template.expandMacros))
  pass (Work.onlyIf o.preprocessIfdebug (Work.apply (Template.resolveDebug o.debug)))
  pass (Work.onlyIf o.mergeAllLoadTags (Work.apply Template.groupLoads))
  pass (Work.apply Template.removeComments)
  onlyIf o.isHtml process

/-- Reads a template, for which others are loaded at most `depth` one inside the other; the main
template also goes through the passes. -/
def parseTemplate (depth : Nat) (path source : String) (main : Bool) :
    Noting Error Session Document Document :=
  Noting.onSource path source do
    assemble (loadTemplate depth)
    onlyIf main finishTemplate

theorem run_assemble (load : Template.Loader) : (assemble load).run = Stencil.assemble load := rfl

theorem run_process : process.run = Markup.process := rfl

theorem run_finishTemplate : finishTemplate.run = Stencil.finishTemplate :=
  run_bind rfl fun _ => run_bind rfl fun _ => run_bind rfl fun _ => run_bind rfl fun _ =>
    run_bind rfl fun _ => run_bind rfl fun _ => run_bind rfl fun _ => run_bind rfl fun _ =>
    run_onlyIf run_process _

theorem run_parseTemplate (path source : String) (main : Bool) (s : Session) :
    (parseTemplate (s.templates.capacity + 1) path source main).run s =
      Stencil.parseTemplate path source main s := by
  refine congrFun (congrArg (Stencil.onSource path source) ?_) s
  exact run_bind (run_assemble _) fun _ => run_onlyIf run_finishTemplate main

theorem loadTemplate_succ (depth : Nat) (name : String) (place : Place) :
    loadTemplate (depth + 1) name place = (do
      let source ← SessionM.load name place
      SessionM.reading name place (parseTemplate depth name source false).run) := by
  refine congrArg (SessionM.load name place >>= ·) (funext fun source => ?_)
  refine congrArg (SessionM.reading name place) (congrArg (onSource name source) ?_)
  show Stencil.assemble (loadTemplate depth) = (assemble (loadTemplate depth)).run >>= fun _ => pure ()
  rw [run_assemble, bind_pure_unit]

end Passes

theorem assemble_keepsTree {load : Template.Loader} (hl : load.Plants) :
    (assemble load).KeepsTree where
  grove h hok := by
    obtain ⟨_, j1, hparse, hok⟩ := bind_eq_ok.mp hok
    obtain ⟨_, j2, hextends, hok⟩ := bind_eq_ok.mp hok
    obtain ⟨_, j3, hincludes, hok⟩ := bind_eq_ok.mp hok
    have h1 := Template.parse_sustains.keepsTree.grove h hparse
    have h2 := (Template.expandExtends_keepsTree hl).grove h1 hextends
    have h3 := (Template.expandIncludes_sustains hl).keepsTree.grove h2 hincludes
    exact (Template.expandDecorates_sustains hl).keepsTree.grove h3 hok

theorem onSource_eq_ok {path source : String} {w : Work Unit}
    (h : onSource path source w s = .ok d s') :
    w { session := s, document := ofSource path source } = .ok () { session := s', document := d } := by
  rw [onSource] at h
  cases hw : w { session := s, document := ofSource path source } with
  | ok a j => rw [hw] at h; cases h; rfl
  | error e j => rw [hw] at h; cases h

theorem reading_eq_ok {name : String} {place : Place} {t : SessionM α}
    {a : α} (h : SessionM.reading name place t s = .ok a s') : ∃ s1, t (s.enter name) = .ok a s1 := by
  rw [SessionM.reading] at h
  split_ifs at h
  cases ht : t (s.enter name) with
  | ok b s1 => rw [ht] at h; cases h; exact ⟨s1, rfl⟩
  | error e s1 => rw [ht] at h; cases h

theorem loadTemplate_plants (depth : Nat) : (loadTemplate depth).Plants := by
  induction depth with
  | zero => exact ⟨fun hok => by cases hok⟩
  | succ depth ih =>
    refine ⟨fun {name place s s' d} hok => ?_⟩
    obtain ⟨source, s1, -, hok⟩ := bind_eq_ok.mp hok
    obtain ⟨s2, hok⟩ := reading_eq_ok hok
    exact (assemble_keepsTree ih).grove (grove_ofSource name source) (onSource_eq_ok hok)

/-- Every node below the root has one owner, in which it stands once, and is not below itself. -/
structure Document.OneOwner (d : Document) : Prop where
  owner : ∀ x, Reaches d.refs root x → x ≠ root →
    ∃ p, Reaches d.refs root p ∧ (d.refs p).count x = 1 ∧
      ∀ q, Reaches d.refs root q → x ∈ d.refs q → q = p
  acyclic : ∀ x y, Reaches d.refs root x → y ∈ d.refs x → ¬ Reaches d.refs y x

theorem Document.Grove.oneOwner (h : d.Grove [root]) : d.OneOwner where
  owner x hx hne := by
    obtain heq | ⟨p, hp, hmem⟩ := Relation.ReflTransGen.cases_tail hx
    · exact absurd heq hne
    · exact ⟨p, hp, List.count_eq_one_of_mem (h.nodup_refs p) hmem,
        fun q _ hq => h.owner_eq hq hmem⟩
  acyclic x y _ hy := h.not_reaches_mem hy

/-- Whichever way it ends, each document that is left on the way has single owners, and so has the
last one. -/
def Owning {α : Type} (x : Noting Error Job Document α) : Prop :=
  ∀ j : Job, j.document.Grove [root] → Witnesses x.run x.noted j
    (fun _ j' => j'.document.Grove [root]) (fun _ _ => True) Document.OneOwner

namespace Owning

variable {β : Type}

theorem of_pass {w : Work Unit} (hw : w.KeepsTree) : Owning (pass w) := fun j h => {
  ok := fun _ _ hok => hw.grove h hok
  error := fun _ _ _ => trivial
  all := by
    intro d (hd : d ∈ Journal.afterResult (fun _ j' => [j'.document]) (w j))
    cases hok : w j with
    | ok a j' =>
      rw [hok] at hd
      rw [List.mem_singleton.mp hd]
      exact (hw.grove h hok).oneOwner
    | error e j' => rw [hok] at hd; cases hd }

theorem of_sustains {w : Work Unit} (hw : Work.Sustains [root] w) : Owning (pass w) :=
  of_pass hw.keepsTree

theorem of_apply {f : Document → Document}
    (hf : ∀ {d : Document}, d.Grove [root] → d.Sustained (f d) [root]) : Owning (pass (Work.apply f)) :=
  of_sustains (.apply hf)

theorem of_onlyIf {f : Document → Document}
    (hf : ∀ {d : Document}, d.Grove [root] → d.Sustained (f d) [root]) (switch : Bool) :
    Owning (pass (Work.onlyIf switch (Work.apply f))) :=
  of_sustains ((Work.Sustains.apply hf).onlyIf switch)

theorem bind {x : Noting Error Job Document α} {f : α → Noting Error Job Document β}
    (hx : Owning x) (hf : ∀ a, Owning (f a)) : Owning (x >>= f) := fun j h =>
  (hx j h).bind fun a j' h' => hf a j' h'

theorem options : Owning (Noting.silent Work.options) := fun _ h => {
  ok := fun _ _ hok => by cases hok; exact h
  error := fun _ _ _ => trivial
  all := fun _ hd => by cases hd }

theorem onlyIf {x : Noting Error Job Document Unit} (hx : Owning x) (switch : Bool) :
    Owning (Noting.onlyIf switch x) := by
  cases switch with
  | true => exact hx
  | false => exact fun _ h => .pure h

end Owning

namespace Passes

open Owning

theorem assemble_owning {load : Template.Loader} (hl : load.Plants) : Owning (assemble load) :=
  (of_sustains Template.parse_sustains).bind fun _ =>
    (of_pass (Template.expandExtends_keepsTree hl)).bind fun _ =>
    (of_sustains (Template.expandIncludes_sustains hl)).bind fun _ =>
    of_sustains (Template.expandDecorates_sustains hl)

theorem process_owning : Owning process :=
  Owning.options.bind fun _ => (of_sustains Markup.lex_sustains).bind fun _ =>
    (of_onlyIf (fun h => (Markup.removeEmptyClasses_thinned _).sustained h) _).bind fun _ =>
    (of_sustains Markup.nest_sustains).bind fun _ =>
    (of_apply fun h => (Markup.commentsToText_thinned _).sustained h).bind fun _ =>
    (of_apply fun h => h.sustained_removeKind (Template.root_lt h) _).bind fun _ =>
    (of_onlyIf (fun h => Markup.mergeInternal_sustained h _) _).bind fun _ =>
    (of_onlyIf (fun h => Markup.mergeInternal_sustained h _) _).bind fun _ =>
    (of_sustains (Markup.packScripts_sustains.onlyIf _)).bind fun _ =>
    (of_sustains (Markup.packStylesheets_sustains.onlyIf _)).bind fun _ =>
    (of_sustains (Markup.compileScripts_sustains.onlyIf _)).bind fun _ =>
    (of_sustains (Markup.compileStyles_sustains.onlyIf _)).bind fun _ =>
    of_onlyIf (fun h => (Markup.compressBlanks_thinned _).sustained h) _

theorem finishTemplate_owning : Owning finishTemplate :=
  (of_sustains Template.applyConfig_sustains).bind fun _ => Owning.options.bind fun _ =>
    (of_onlyIf (fun h => (Template.substituteVariables_thinned _ _).sustained h) _).bind fun _ =>
    (of_onlyIf (fun h => h.sustained_collapseKind (Template.root_lt h) _) _).bind fun _ =>
    (of_onlyIf (fun h => Template.expandMacros_sustained h) _).bind fun _ =>
    (of_onlyIf (fun h => Template.resolveDebug_sustained h _) _).bind fun _ =>
    (of_onlyIf (fun h => Template.groupLoads_sustained h) _).bind fun _ =>
    (of_apply fun h => Template.removeComments_sustained h).bind fun _ =>
    process_owning.onlyIf _

/-- After each pass over a template, and after each pass over a template that is loaded on the way,
every node below the root has one owner. The first two parts say that templates are read by the
passes that are written down here. -/
theorem one_owner_after_passes :
    (∀ path source main (s : Session), Stencil.parseTemplate path source main s =
      (parseTemplate (s.templates.capacity + 1) path source main).run s) ∧
    (∀ depth name place, loadTemplate (depth + 1) name place = (do
      let source ← SessionM.load name place
      SessionM.reading name place (parseTemplate depth name source false).run)) ∧
    ∀ depth path source main s, ∀ d ∈ (parseTemplate depth path source main).noted s, d.OneOwner := by
  refine ⟨fun path source main s => (run_parseTemplate path source main s).symm, loadTemplate_succ,
    fun depth path source main s d hd => ?_⟩
  have howning := (assemble_owning (loadTemplate_plants depth)).bind fun _ =>
    finishTemplate_owning.onlyIf main
  exact (howning _ (grove_ofSource path source)).all d hd

end Passes

end Stencil
