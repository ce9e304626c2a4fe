import Stencil.Proofs.Blocks.Sparing
import Stencil.Proofs.Markup.Keeping
import Stencil.Proofs.Media.Sparing

/-!
# Passes over markup spare enclaves

The passes over the markup of a template do not look for nodes in raw output, or look for nodes of kinds
that only markup has. So **an enclave stays intact** (`process_spares`).
-/

namespace Stencil

open Document List
open Enclave (admitsAll_nil admitsAll_text)

def Work.Spares {α : Type} (w : Work α) : Prop := ∀ e : Enclave, w.Keeps e.Intact

namespace Markup

variable {e : Enclave} {d d' : Document} {id x : NodeId}

theorem removeEmptyClasses_intact (h : e.Intact d) : e.Intact (removeEmptyClasses d) := by
  refine Enclave.Intact.foldl h fun d1 h1 tag htag => ?_
  have hout := h.not_inside_foreign (by decide) htag
  refine h1.setBranch hout ((h1.admitsAll_branch hout 0).sublist ?_) 0
  exact (trimTag_sublist d1 _).trans (dropEmptyClasses_sublist d1 _)

theorem commentsToText_intact (h : e.Intact d) : e.Intact (commentsToText d) := by
  refine Enclave.Intact.foldl h fun d1 h1 region _ => Enclave.Intact.foldl h1 fun d2 h2 x hx => ?_
  have hout := h1.not_inside_foreign (by decide) hx
  exact (h2.setKind hout _).setChildren hout (admitsAll_text _)

theorem compressBlanks_intact (h : e.Intact d) : e.Intact (compressBlanks d) :=
  Enclave.Intact.foldl h fun _ h1 _ hx =>
    h1.setChildren (h.not_inside_foreign (by decide) hx) (admitsAll_text _)

theorem moveContent_intact {target source : NodeId} (h : e.Intact d) (htarget : ¬ e.inside target)
    (hsource : ¬ e.inside source) : e.Intact (moveContent target source d) := by
  have hadmits := h.admitsAll_branch hsource 0
  refine (h.setBranch hsource admitsAll_nil 0).foldl fun d1 h1 f hf => ?_
  exact h1.append htarget (hadmits.sublist (singleton_sublist.mpr hf)) 0

theorem mergeInternal_intact {kind : Kind} (hkind : kind ∉ Kind.ofTemplates) (h : e.Intact d) :
    e.Intact (mergeInternal kind d) := by
  have hout : ∀ x ∈ (d.descendants root [kind] [.conditional, .rawOutput]).filter
      (!isExternal d ·), ¬ e.inside x := fun x hx =>
    h.not_inside_foreign (forall_mem_singleton.mpr hkind) (mem_filter.mp hx).1
  rw [mergeInternal]
  generalize (d.descendants root [kind] [.conditional, .rawOutput]).filter
    (!isExternal d ·) = found at hout
  cases found with
  | nil => exact h
  | cons first others =>
    obtain ⟨hfirst, hothers⟩ := forall_mem_cons.mp hout
    exact (h.foldl fun d h other ho => moveContent_intact h hfirst (hothers other ho)).removeNodes
      root hothers

theorem pointAt_intact (tag : Branch) (name : String) (b : Bundle) (h : e.Intact d) :
    e.Intact (pointAt tag name b d) := by
  rw [pointAt]
  split
  · rw [setAttributeValue]
    split
    case h_1 value hvalue =>
      have hk : (d.kind value == .attributeValue) = true := List.find?_some (p := (d.kind · == .attributeValue)) hvalue
      refine h.setChildren (h.not_inside_of_kind ?_) (admitsAll_text _)
      rw [beq_iff_eq.mp hk]
      decide
    case h_2 => exact h
  · exact h

theorem not_inside_of_scriptFile {o : Options} {file : MediaFile} (h : e.Intact d)
    (hfile : file ∈ scriptFiles o d id) : ¬ e.inside file.tag := by
  obtain ⟨script, hscript, hfile⟩ := mem_filterMap.mp hfile
  obtain ⟨url, -, hfile⟩ := Option.bind_eq_some_iff.mp hfile
  rw [mediaFile?] at hfile
  split_ifs at hfile
  obtain rfl := Option.some.inj hfile
  exact h.not_inside_foreign (by decide) hscript

theorem not_inside_of_stylesheetLink {o : Options} {link : StylesheetLink} (h : e.Intact d)
    (hlink : link ∈ stylesheetLinks o d id) : ¬ e.inside link.file.tag := by
  obtain ⟨tag, htag, hlink⟩ := mem_filterMap.mp hlink
  obtain ⟨url, -, hlink⟩ := Option.bind_eq_some_iff.mp hlink
  obtain ⟨file, hfile, hlink⟩ := Option.bind_eq_some_iff.mp hlink
  obtain rfl := Option.some.inj hlink
  rw [mediaFile?] at hfile
  split_ifs at hfile
  obtain rfl := Option.some.inj hfile
  exact h.not_inside_foreign (by decide) (mem_filter.mp htag).1

theorem bundleScripts_spares (id : NodeId) : (bundleScripts id).Spares := by
  intro e
  refine .options_bind fun o => .document_bind fun d hd => ?_
  have hout := fun file (hfile : file ∈ scriptFiles o d id) => not_inside_of_scriptFile hd hfile
  cases hfiles : scriptFiles o d id with
  | nil => exact .pure ()
  | cons first others =>
    rw [hfiles] at hout
    refine (Work.Keeps.task _).bind fun bundle => (Work.Keeps.apply fun {d} h => ?_).bind fun _ => .task _
    refine (pointAt_intact _ _ bundle h).removeNodes id fun x hx => ?_
    obtain ⟨file, hfile, rfl⟩ := mem_map.mp hx
    exact hout file (mem_cons_of_mem _ hfile)

theorem bundleRun_intact {run : List StylesheetLink} {j j' : Job} {removed : List NodeId}
    (h : e.Intact j.document) (hrun : ∀ l ∈ run, ¬ e.inside l.file.tag)
    (hok : bundleRun run j = .ok removed j') : e.Intact j'.document ∧ ∀ x ∈ removed, ¬ e.inside x := by
  have hout : ∀ file ∈ run.map (·.file), ¬ e.inside file.tag := forall_mem_map.mpr hrun
  rw [bundleRun] at hok
  cases hfiles : run.map (·.file) with
  | nil =>
    rw [hfiles] at hok
    obtain ⟨rfl, rfl⟩ := pure_eq_ok.mp hok
    exact ⟨h, fun x hx => absurd hx not_mem_nil⟩
  | cons first others =>
    rw [hfiles] at hok hout
    obtain ⟨bundle, j1, htask, hok⟩ := bind_eq_ok.mp hok
    obtain ⟨s, -, rfl⟩ := Work.task_eq_ok.mp htask
    obtain ⟨_, j2, happly, hok⟩ := bind_eq_ok.mp hok
    obtain rfl := Work.apply_eq_ok.mp happly
    obtain ⟨_, j3, htask, hok⟩ := bind_eq_ok.mp hok
    obtain ⟨s', -, rfl⟩ := Work.task_eq_ok.mp htask
    obtain ⟨rfl, rfl⟩ := pure_eq_ok.mp hok
    refine ⟨pointAt_intact _ _ bundle h, forall_mem_map.mpr fun file hfile => ?_⟩
    exact hout file (mem_cons_of_mem _ hfile)

theorem bundleStylesheets_spares (id : NodeId) : (bundleStylesheets id).Spares := by
  intro e
  refine .options_bind fun o => .document_bind fun d hd => ⟨fun {j j' _} h hok => ?_⟩
  have hruns : ∀ run ∈ mediaRuns (stylesheetLinks o d id), ∀ l ∈ run, ¬ e.inside l.file.tag := by
    intro run hrun l hl
    refine not_inside_of_stylesheetLink (o := o) hd (?_ : l ∈ stylesheetLinks o d id)
    rw [← flatten_splitBy (fun a b : StylesheetLink => a.media == b.media)
      (stylesheetLinks o d id)]
    exact mem_flatten.mpr ⟨run, hrun, hl⟩
  obtain ⟨removed, j1, hmap, hok⟩ := bind_eq_ok.mp hok
  obtain rfl := Work.apply_eq_ok.mp hok
  obtain ⟨h1, hremoved⟩ := Work.Keeps.mapM (P := e.Intact) (Q := fun r => ∀ x ∈ r, ¬ e.inside x)
    (fun run hrun {_ _ _} h hok => bundleRun_intact h (hruns run hrun) hok) h hmap
  refine h1.removeNodes id fun x hx => ?_
  obtain ⟨r, hr, hx⟩ := mem_flatten.mp hx
  exact hremoved r hr x hx

theorem forM_descendants_spares {kinds closed : List Kind} {f : NodeId → Work Unit}
    (hkinds : ∀ k ∈ kinds, k ∉ Kind.ofTemplates)
    (hf : ∀ {e : Enclave} {x : NodeId}, ¬ e.inside x → (f x).Keeps e.Intact) :
    Work.Spares (do ((← Work.document).descendants root kinds closed).forM f) := fun _ =>
  .document_bind fun _ hd => .forM fun _ hx => hf (hd.not_inside_foreign hkinds hx)

theorem compileScripts_spares : compileScripts.Spares :=
  forM_descendants_spares (by decide) fun hx => .document_bind fun _ _ =>
    .onlyIf ⟨fun h hok => Region.compile_intact Script.language_spares h hx hok⟩ _

theorem compileStyles_spares : compileStyles.Spares :=
  forM_descendants_spares (by decide) fun hx =>
    ⟨fun h hok => Region.compile_intact (Stylesheet.language_spares none) h hx hok⟩

theorem packScripts_spares : packScripts.Spares := fun e =>
  .document_bind fun _ _ => .forM fun id _ => bundleScripts_spares id e

theorem packStylesheets_spares : packStylesheets.Spares := fun e =>
  .document_bind fun _ _ => .forM fun id _ => bundleStylesheets_spares id e

theorem lex_spares : Work.Spares (Work.edit lex) := fun e =>
  .edit fun h hok => Grammar.tokenize_intact (by decide) (by decide) h e.not_inside_root hok

theorem nest_spares : Work.Spares (Work.edit nest) := fun _ =>
  .edit fun h hok => Nesting.nest_intact (by rw [Nesting.Foreign]; decide) h hok

theorem removeComments_spares :
    Work.Spares (Work.apply (·.removeKind root .markupComment)) := fun _ =>
  .apply fun h => h.removeNodes root fun _ hx => h.not_inside_foreign (by decide) hx

theorem process_spares : process.Spares := fun e =>
  .options_bind fun o => (lex_spares e).bind fun _ =>
    (Work.Keeps.onlyIf (.apply removeEmptyClasses_intact) _).bind fun _ =>
    (nest_spares e).bind fun _ =>
    (Work.Keeps.apply commentsToText_intact).bind fun _ =>
    (removeComments_spares e).bind fun _ =>
    (Work.Keeps.onlyIf (.apply (mergeInternal_intact (by decide))) _).bind fun _ =>
    (Work.Keeps.onlyIf (.apply (mergeInternal_intact (by decide))) _).bind fun _ =>
    ((packScripts_spares e).onlyIf _).bind fun _ =>
    ((packStylesheets_spares e).onlyIf _).bind fun _ =>
    ((compileScripts_spares e).onlyIf _).bind fun _ =>
    ((compileStyles_spares e).onlyIf _).bind fun _ =>
    .onlyIf (.apply compressBlanks_intact) _

end Markup

end Stencil
