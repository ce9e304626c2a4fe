import Stencil.Proofs.Cache.Templates

/-!
# What compiling media asks the cache for

The passes over the markup that compile scripts and stylesheets, together with the parts they ask the
cache for: a plain region and a file of a bundle ask for what is compiled from their source, and a
bundle asks for what its compiled files are joined to. Each pass is the one that is carried out
(`run_process`), and with a hash that tells apart what it asks for, asking goes unnoticed
(**`process_discreet`**).
-/

namespace Stencil.Asking

open Document List Markup Noting String

variable {d : Document} {id : NodeId} {url : String} {F : List String → Prop}

def compileCached (l : Language) (path source : String) : Asking Session (Except Error String) :=
  fetch (l.keyParts source) fun _ => l.compileSource path source

def compileFile (l : Language) (path source : String) : Asking Session String := do
  match ← compileCached l path source with
  | .ok compiled => return compiled
  | .error e => silent (throw e)

def compileRegion (l : Language) (id : NodeId) : Asking Job Unit := do
  silent (Work.apply fun d => Region.flatten d.size id d)
  let d ← silent Work.document
  match Region.plainText? d id with
  | none => silent (Work.edit (Region.compileInside l id))
  | some source =>
    match ← task (compileCached l d.path source) with
    | .ok compiled => silent (Work.apply (·.setChildren id [.text compiled]))
    | .error _ => silent (Work.edit (Region.compileInside l id))

theorem run_compileFile (l : Language) (path source : String) :
    (compileFile l path source).run = l.compileFile path source := by
  refine run_bind rfl fun r => ?_
  cases r <;> rfl

theorem run_compileRegion (l : Language) (id : NodeId) :
    (compileRegion l id).run = Region.compile l id := by
  refine run_bind rfl fun _ => run_bind rfl fun d => ?_
  cases Region.plainText? d id with
  | none => rfl
  | some source =>
    refine run_bind rfl fun r => ?_
    cases r <;> rfl

section

variable (hinj : ∀ p q, F p → F q → Key.ofParts p = Key.ofParts q → p = q) {l : Language}
  (hl : l.Known)

include hinj hl

theorem compileCached_discreet (path source : String) : Discreet F (compileCached l path source) :=
  .fetch hinj fun _ => made_keyParts_iff hl

theorem compileFile_discreet (path source : String) : Discreet F (compileFile l path source) := by
  refine (compileCached_discreet hinj hl path source).bind fun r => ?_
  cases r with
  | ok compiled => exact .pure compiled
  | error e => exact .silent (.throw e)

theorem compileRegion_discreet (id : NodeId) : Discreet F (compileRegion l id) := by
  refine (Discreet.silent (.apply _)).bind fun _ => (Discreet.silent .document).bind fun d => ?_
  cases Region.plainText? d id with
  | none => exact .silent (.edit _)
  | some source =>
    refine (Discreet.task (compileCached_discreet hinj hl d.path source)).bind fun r => ?_
    cases r with
    | ok compiled => exact .silent (.apply _)
    | error e => exact .silent (.edit _)

end

def compileMedia (type : MediaType) (file : MediaFile) : Asking Session String := do
  let source ← silent (SessionM.loadMedia file.url file.place)
  compileFile (type.language file.url) file.url source

def makeBundle (type : MediaType) (files : List MediaFile) : Asking Session Bundle := do
  let compiled ← files.mapM' (compileMedia type)
  let joined := "\n".intercalate compiled
  let options ← look (·.options)
  match ← fetch [type.extension, joined] fun _ => .ok joined with
  | .error e => silent (throw e)
  | .ok content => return {
      url := options.bundleUrl ++ (Key.ofParts [type.extension, joined]).hex ++ "." ++ type.extension
      files := files.map (·.url)
      content }

theorem run_compileMedia (type : MediaType) (file : MediaFile) :
    (compileMedia type file).run = Markup.compileMedia type file :=
  run_bind rfl fun source => run_compileFile (type.language file.url) file.url source

theorem run_makeBundle (type : MediaType) (files : List MediaFile) :
    (makeBundle type files).run = Markup.makeBundle type files := by
  refine run_bind (run_mapM' (run_compileMedia type) files) fun compiled => ?_
  refine run_look_bind fun s => run_bind rfl fun r => ?_
  cases r <;> rfl

theorem url_ne_of_isPackable {o : Options} (h : isPackable o url = true) :
    url ≠ "" := by
  rintro rfl
  rw [isPackable, Bool.or_eq_true, any_eq_true] at h
  rcases h with ⟨start, -, h⟩ | h
  · rw [Bool.and_eq_true, decide_eq_true_eq] at h
    obtain ⟨hne, hpre⟩ := h
    rw [String.isPrefixOf, startsWith_string_iff, toList_empty, prefix_nil, toList_eq_nil_iff] at hpre
    exact hne hpre
  · exact absurd h (by decide)

theorem url_ne_of_mediaFile? {o : Options} {tag : NodeId}
    {file : MediaFile} (h : mediaFile? o d tag url = some file) : file.url ≠ "" := by
  rw [mediaFile?] at h
  split_ifs at h with hp
  cases h
  exact url_ne_of_isPackable hp

theorem url_ne_of_mem_scriptFiles {o : Options} {file : MediaFile}
    (h : file ∈ scriptFiles o d id) : file.url ≠ "" := by
  obtain ⟨script, -, h⟩ := mem_filterMap.mp h
  obtain ⟨url, -, h⟩ := Option.bind_eq_some_iff.mp h
  exact url_ne_of_mediaFile? h

theorem url_ne_of_mem_stylesheetLinks {o : Options}
    {link : StylesheetLink} (h : link ∈ stylesheetLinks o d id) : link.file.url ≠ "" := by
  obtain ⟨tag, -, h⟩ := mem_filterMap.mp h
  obtain ⟨url, -, h⟩ := Option.bind_eq_some_iff.mp h
  obtain ⟨file, hfile, h⟩ := Option.bind_eq_some_iff.mp h
  cases h
  exact url_ne_of_mediaFile? hfile

def bundleScripts (id : NodeId) : Asking Job Unit := do
  let o ← silent Work.options
  let d ← silent Work.document
  match scriptFiles o d id with
  | [] => return
  | first :: others => do
    let bundle ← task (makeBundle .script (first :: others))
    silent (Work.apply fun d =>
      (pointAt (openingTag d first.tag) "src" bundle d).removeNodes id (others.map (·.tag)))
    silent (Work.task (modify (·.addBundle bundle)))

def packScripts : Asking Job Unit := do
  (compressTags (← silent Work.document)).forM bundleScripts

/-- Bundles a run of links and gives the tags that are no longer needed. -/
def bundleRun (run : List StylesheetLink) : Asking Job (List NodeId) := do
  match run.map (·.file) with
  | [] => return []
  | first :: others => do
    let bundle ← task (makeBundle .stylesheet (first :: others))
    silent (Work.apply fun d => pointAt (d.children first.tag) "href" bundle d)
    silent (Work.task (modify (·.addBundle bundle)))
    return others.map (·.tag)

def bundleStylesheets (id : NodeId) : Asking Job Unit := do
  let o ← silent Work.options
  let d ← silent Work.document
  let removed ← (mediaRuns (stylesheetLinks o d id)).mapM' bundleRun
  silent (Work.apply (·.removeNodes id removed.flatten))

def packStylesheets : Asking Job Unit := do
  (compressTags (← silent Work.document)).forM bundleStylesheets

theorem run_bundleScripts (id : NodeId) : (bundleScripts id).run = Markup.bundleScripts id := by
  refine run_bind rfl fun o => run_bind rfl fun d => ?_
  cases scriptFiles o d id with
  | nil => rfl
  | cons first others =>
    exact run_bind (run_task (run_makeBundle _ _)) fun _ => run_bind rfl fun _ => rfl

theorem run_packScripts : packScripts.run = Markup.packScripts :=
  run_bind rfl fun _ => run_forM run_bundleScripts _

theorem run_bundleRun (run : List StylesheetLink) : (bundleRun run).run = Markup.bundleRun run := by
  rw [bundleRun, Markup.bundleRun]
  cases run.map (·.file) with
  | nil => rfl
  | cons first others =>
    exact run_bind (run_task (run_makeBundle _ _)) fun _ => run_bind rfl fun _ =>
      run_bind rfl fun _ => rfl

theorem run_bundleStylesheets (id : NodeId) :
    (bundleStylesheets id).run = Markup.bundleStylesheets id :=
  run_bind rfl fun _ => run_bind rfl fun _ => run_bind (run_mapM' run_bundleRun _) fun _ => rfl

theorem run_packStylesheets : packStylesheets.run = Markup.packStylesheets :=
  run_bind rfl fun _ => run_forM run_bundleStylesheets _

def compileScripts : Asking Job Unit := do
  ((← silent Work.document).descendants root [.script] [.rawOutput]).forM fun script => do
    let d ← silent Work.document
    onlyIf (!isExternal d script && isScriptType d script) (compileRegion Script.language script)

def compileStyles : Asking Job Unit := do
  ((← silent Work.document).descendants root [.style] [.rawOutput]).forM
    (compileRegion (Stylesheet.language none))

def process : Asking Job Unit := do
  let o ← silent Work.options
  silent (Work.edit lex)
  silent (Work.onlyIf o.removeEmptyClassAttributes (Work.apply removeEmptyClasses))
  silent (Work.edit nest)
  silent (Work.apply commentsToText)
  silent (Work.apply (·.removeKind root .markupComment))
  silent (Work.onlyIf o.mergeInternalJavascript (Work.apply (mergeInternal .script)))
  silent (Work.onlyIf o.mergeInternalCss (Work.apply (mergeInternal .style)))
  onlyIf o.packExternalJavascript packScripts
  onlyIf o.packExternalCss packStylesheets
  onlyIf o.compileJavascript compileScripts
  onlyIf o.compileCss compileStyles
  silent (Work.onlyIf o.whitespaceCompression (Work.apply compressBlanks))

theorem run_compileScripts : compileScripts.run = Markup.compileScripts :=
  run_bind rfl fun _ => run_forM (fun script => run_bind rfl fun _ =>
    run_onlyIf (run_compileRegion Script.language script) _) _

theorem run_compileStyles : compileStyles.run = Markup.compileStyles :=
  run_bind rfl fun _ => run_forM (run_compileRegion (Stylesheet.language none)) _

theorem run_process : process.run = Markup.process :=
  run_bind rfl fun _ => run_bind rfl fun _ => run_bind rfl fun _ => run_bind rfl fun _ =>
    run_bind rfl fun _ => run_bind rfl fun _ => run_bind rfl fun _ => run_bind rfl fun _ =>
    run_bind (run_onlyIf run_packScripts _) fun _ =>
    run_bind (run_onlyIf run_packStylesheets _) fun _ =>
    run_bind (run_onlyIf run_compileScripts _) fun _ =>
    run_bind (run_onlyIf run_compileStyles _) fun _ => rfl

section

variable (hinj : ∀ p q, F p → F q → Key.ofParts p = Key.ofParts q → p = q)

include hinj

theorem compileMedia_discreet (type : MediaType) {file : MediaFile} (h : file.url ≠ "") :
    Discreet F (compileMedia type file) := by
  refine (Discreet.silent (SessionM.loadMedia_ignoresCache _ _)).bind fun source => ?_
  refine compileFile_discreet hinj ?_ file.url source
  cases type with
  | script => exact .script
  | stylesheet => exact .stylesheet h

theorem makeBundle_discreet (type : MediaType) {files : List MediaFile}
    (h : ∀ file ∈ files, file.url ≠ "") : Discreet F (makeBundle type files) := by
  refine (Discreet.mapM' fun file hf => compileMedia_discreet hinj type (h file hf)).bind
    fun compiled => ?_
  refine (Discreet.look fun _ _ => rfl).bind fun o => ?_
  refine (Discreet.fetch hinj fun content => ?_).bind fun r => ?_
  · rw [made_extension_iff, Except.ok.injEq, eq_comm]
  · cases r with
    | ok content => exact .pure _
    | error e => exact .silent (.throw e)

theorem bundleScripts_discreet (id : NodeId) : Discreet F (bundleScripts id) := by
  refine (Discreet.silent .options).bind fun o => (Discreet.silent .document).bind fun d => ?_
  have hurl : ∀ file ∈ scriptFiles o d id, file.url ≠ "" := fun _ => url_ne_of_mem_scriptFiles
  cases hfiles : scriptFiles o d id with
  | nil => exact .pure ()
  | cons first others =>
    rw [hfiles] at hurl
    exact (Discreet.task (makeBundle_discreet hinj .script hurl)).bind fun b =>
      (Discreet.silent (.apply _)).bind fun _ => .silent (.task (.modify fun _ _ => rfl))

theorem bundleRun_discreet {run : List StylesheetLink} (h : ∀ link ∈ run, link.file.url ≠ "") :
    Discreet F (bundleRun run) := by
  have hurl : ∀ file ∈ run.map (·.file), file.url ≠ "" := by
    simpa only [forall_mem_map] using h
  rw [bundleRun]
  cases hfiles : run.map (·.file) with
  | nil => exact .pure []
  | cons first others =>
    rw [hfiles] at hurl
    exact (Discreet.task (makeBundle_discreet hinj .stylesheet hurl)).bind fun b =>
      (Discreet.silent (.apply _)).bind fun _ =>
        (Discreet.silent (.task (.modify fun _ _ => rfl))).bind fun _ => .pure _

theorem bundleStylesheets_discreet (id : NodeId) : Discreet F (bundleStylesheets id) := by
  refine (Discreet.silent .options).bind fun o => (Discreet.silent .document).bind fun d => ?_
  refine (Discreet.mapM' fun run hrun => bundleRun_discreet hinj fun link hlink => ?_).bind
    fun _ => .silent (.apply _)
  have hmem : link ∈ (mediaRuns (stylesheetLinks o d id)).flatten :=
    mem_flatten.mpr ⟨run, hrun, hlink⟩
  rw [mediaRuns, flatten_splitBy] at hmem
  exact url_ne_of_mem_stylesheetLinks hmem

theorem packScripts_discreet : Discreet F packScripts :=
  (Discreet.silent .document).bind fun _ => .forM (bundleScripts_discreet hinj) _

theorem packStylesheets_discreet : Discreet F packStylesheets :=
  (Discreet.silent .document).bind fun _ => .forM (bundleStylesheets_discreet hinj) _

theorem compileScripts_discreet : Discreet F compileScripts :=
  (Discreet.silent .document).bind fun _ => .forM (fun script =>
    (Discreet.silent .document).bind fun _ =>
      (compileRegion_discreet hinj .script script).onlyIf _) _

theorem compileStyles_discreet : Discreet F compileStyles :=
  (Discreet.silent .document).bind fun _ => .forM (compileRegion_discreet hinj .inlineStyle) _

theorem process_discreet : Discreet F process :=
  (Discreet.silent .options).bind fun _ => (Discreet.silent (.edit _)).bind fun _ =>
    (Discreet.silent (.onlyIf (.apply _) _)).bind fun _ => (Discreet.silent (.edit _)).bind fun _ =>
    (Discreet.silent (.apply _)).bind fun _ => (Discreet.silent (.apply _)).bind fun _ =>
    (Discreet.silent (.onlyIf (.apply _) _)).bind fun _ =>
    (Discreet.silent (.onlyIf (.apply _) _)).bind fun _ =>
    ((packScripts_discreet hinj).onlyIf _).bind fun _ =>
    ((packStylesheets_discreet hinj).onlyIf _).bind fun _ =>
    ((compileScripts_discreet hinj).onlyIf _).bind fun _ =>
    ((compileStyles_discreet hinj).onlyIf _).bind fun _ => .silent (.onlyIf (.apply _) _)

end

end Stencil.Asking
