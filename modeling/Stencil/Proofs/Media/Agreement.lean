import Stencil.Proofs.Script.Mirroring
import Stencil.Proofs.Stylesheet.Mirroring
import Stencil.Proofs.Work

/-!
# Two ways to compile a region

A region that is plain text is compiled in a document of its own, and what comes out is put in its
place. It could as well be compiled where it stands, as regions with tags in them are. **Both ways
agree** (`Region.compile_agrees`): they succeed together and then write the same, or they fail with
the same fault, and the error that is reported points into the template.
-/

namespace Stencil

open Document List

variable {d : Document} {id : NodeId} {s : Session} {t : String}

/-- A language that compiles a text in a document of its own as in a region of another document. -/
def Language.Uniform (l : Language) : Prop :=
  ∀ {e : Document} {region : NodeId} {b : Branch} (path : String), region < e.size →
    e.branches region = [b] → b.nodes = [] → ∀ through enter : List Kind,
    Alike Error.SameFault (fun _ d _ e' => Mirror (standing region e.size) d e' ∧ Ready d)
      (l.process [] [] root (ofSource path b.text)) (l.process through enter region e)

theorem Script.language_uniform : Script.language.Uniform :=
  fun path hlt hb hn through enter => Script.process_alike path hlt hb hn through enter

theorem Stylesheet.language_uniform (base : Option String) : (Stylesheet.language base).Uniform :=
  fun path hlt hb hn through enter => Stylesheet.process_alike base path hlt hb hn through enter

/-- What compiling a source gives, and what compiling it in a region of a document does. -/
inductive Region.Agree (region : NodeId) :
    Except Error String → EStateM.Result Error Document Unit → Prop where
  | ok {d : Document} : Agree region (.ok (d.writeBranches d.outputOf region)) (.ok () d)
  | error {err err' : Error} {d : Document} : err.SameFault err' →
      Agree region (.error err) (.error err' d)

namespace Region

variable {l : Language} {b : Branch}

theorem compileInside_agree (hl : l.Uniform) (path : String) (hlt : id < d.size)
    (hb : d.branches id = [b]) (hn : b.nodes = []) :
    Agree id (l.compileSource path b.text) (compileInside l id d) := by
  have halike := hl path hlt hb hn contentKinds Kind.templateBlocks
  rw [Language.compileSource, compileInside]
  generalize l.process [] [] root (ofSource path b.text) = r at halike
  generalize l.process contentKinds Kind.templateBlocks id d = r' at halike
  cases halike with
  | ok h =>
    show Agree id (.ok _) _
    rw [← h.1.output_eq h.2]
    exact .ok
  | error h => exact .error h

theorem lt_size_of_branches (hb : d.branches id = [[.text t]]) : id < d.size := by
  by_contra hlt
  rw [branches, node_of_le (not_lt.mp hlt)] at hb
  cases hb

theorem flatten_of_text (hb : d.branches id = [[.text t]]) :
    flatten d.size id d = d.setBranch id 0 (if t = "" then [] else [.text t]) := by
  have hbranch : d.branch id 0 = [.text t] := by
    rw [branch, Node.branch, ← branches, hb]
    rfl
  obtain ⟨n, hn⟩ := Nat.exists_eq_succ_of_ne_zero
    (ne_of_gt (Nat.zero_lt_of_lt (lt_size_of_branches hb)))
  rw [hn, flatten, hb, length_singleton, range_one, foldl_cons, foldl_nil, hbranch]
  simp only [foldl_cons, foldl_nil, Branch.stack]
  split_ifs <;> rfl

end Region

theorem Cache.fetch_empty {ε : Type} (k : Key) (compute : Unit → Except ε String) :
    (({} : Cache).fetch k compute).1 = compute () := by
  show (Prod.fst (Cache.fetch {} k compute)) = _
  rw [fetch, fetchM, show ({} : Cache).get? k = none from rfl]
  cases compute () <;> rfl

theorem Language.compileCached_of_fresh (l : Language) (path source : String) (hc : s.cache = {}) :
    ∃ s', l.compileCached path source s = .ok (l.compileSource path source) s' := by
  have hcached : l.compileCached path source s =
      .ok (s.cache.fetch (Key.ofParts (l.keyParts source)) fun _ => l.compileSource path source).1
        { s with cache := (s.cache.fetch (Key.ofParts (l.keyParts source))
          fun _ => l.compileSource path source).2 } := rfl
  rw [hcached, hc, Cache.fetch_empty]
  exact ⟨_, rfl⟩

namespace Region

variable {l : Language} {job : Job}

theorem compile_of_text (hb : job.document.branches id = [[.text t]]) (ht : t ≠ "")
    (hc : job.session.cache = {}) :
    (∀ out, l.compileSource job.document.path t = .ok out → ∃ s, compile l id job =
      .ok () ⟨s, job.document.setChildren id [.text out]⟩) ∧
    ∀ err, l.compileSource job.document.path t = .error err → ∃ s, compile l id job =
      Work.edit (compileInside l id) ⟨s, job.document⟩ := by
  have hflat : flatten job.document.size id job.document = job.document := by
    rw [flatten_of_text hb, if_neg ht, setBranch]
    refine (modify_congr ?_).trans (modify_id _ id)
    rw [Node.setBranch_zero]
    rw [branches] at hb
    cases hnode : job.document.node id with
    | mk kind place bs payload =>
      rw [hnode] at hb
      simp only at hb
      rw [hb]
      rfl
  have hplain : plainText? job.document id = some t := by
    rw [plainText?, hb]
  obtain ⟨s, hs⟩ := l.compileCached_of_fresh job.document.path t hc
  rw [compile, Work.apply_bind, hflat, Work.document_bind, hplain]
  simp only [Work.task_bind hs]
  refine ⟨fun out hout => ⟨s, ?_⟩, fun err herr => ⟨s, ?_⟩⟩
  · rw [hout]
    rfl
  · rw [herr]

theorem branches_setChildren (hlt : id < job.document.size) (b : Branch) :
    (job.document.setChildren id b).branches id = [b] := by
  rw [branches, setChildren, modify_self hlt]

theorem compile_of_empty (hb : job.document.branches id = [[.text ""]]) : compile l id job =
    Work.edit (compileInside l id) { job with document := job.document.clear id } := by
  have hlt := lt_size_of_branches hb
  have hclear : job.document.setBranch id 0 [] = job.document.clear id := by
    refine modify_congr ?_
    rw [branches] at hb
    rw [Node.setBranch_zero, hb]
    rfl
  have hplain : plainText? (job.document.clear id) id = none := by
    rw [plainText?, clear, branches_setChildren hlt]
  rw [compile, Work.apply_bind, flatten_of_text hb, if_pos rfl, hclear, Work.document_bind]
  simp only [hplain]

/-- What compiling a region that holds a text does, next to what compiling its text gives. -/
inductive Outcome (id : NodeId) (t : String) :
    Except Error String → EStateM.Result Error Job Unit → Prop where
  | ok {job : Job} {out : String} : (t ≠ "" → job.document.branches id = [[.text out]]) →
      job.document.writeBranches job.document.outputOf id = out →
      Outcome id t (.ok out) (.ok () job)
  | error {err err' : Error} {job : Job} : err.SameFault err' →
      Outcome id t (.error err) (.error err' job)

theorem outcome_of_agree {r : Except Error String}
    (h : Agree id r (compileInside l id d)) (ht : t = "" ∨ ∃ err, r = .error err) :
    Outcome id t r (Work.edit (compileInside l id) ⟨s, d⟩) := by
  rw [Work.edit]
  generalize compileInside l id d = r' at h
  cases h with
  | ok =>
    refine .ok (fun hne => ?_) rfl
    rcases ht with ht | ⟨err, hr⟩
    · exact absurd ht hne
    · cases hr
  | error h => exact .error h

theorem compile_outcome (hl : l.Uniform) (hb : job.document.branches id = [[.text t]])
    (hc : job.session.cache = {}) :
    Outcome id t (l.compileSource job.document.path t) (compile l id job) := by
  have hlt := lt_size_of_branches hb
  by_cases ht : t = ""
  · subst ht
    rw [compile_of_empty hb]
    refine outcome_of_agree ?_ (.inl rfl)
    refine compileInside_agree (b := []) hl _ ?_ (branches_setChildren hlt []) rfl
    rw [clear, setChildren, size_modify]
    exact hlt
  · obtain ⟨hok, herror⟩ := compile_of_text (l := l) hb ht hc
    cases hsource : l.compileSource job.document.path t with
    | ok out =>
      obtain ⟨s, hs⟩ := hok out hsource
      rw [hs]
      refine .ok (fun _ => branches_setChildren hlt _) ?_
      simp [writeBranches, branches_setChildren hlt]
    | error err =>
      obtain ⟨s, hs⟩ := herror err hsource
      have htext : Branch.text [.text t] = t := by simp [Branch.text]
      have hagree := compileInside_agree hl job.document.path hlt hb rfl
      rw [htext, hsource] at hagree
      rw [hs]
      exact outcome_of_agree hagree (.inr ⟨err, rfl⟩)

/-- Compiling a region of plain text as a source and compiling it where it stands agree, for scripts
and for stylesheets. Either both succeed: the region is then written alike, and holds what was
compiled as its only text. Or both stop with errors that say the same, each at a place of its own. -/
theorem compile_agrees (hl : l = Script.language ∨ ∃ base, l = Stylesheet.language base)
    (hb : job.document.branches id = [[.text t]]) (hc : job.session.cache = {}) :
    (∃ out job' d', l.compileSource job.document.path t = .ok out ∧
      compile l id job = .ok () job' ∧ compileInside l id job.document = .ok () d' ∧
      (t ≠ "" → job'.document.branches id = [[.text out]]) ∧
      job'.document.writeBranches job'.document.outputOf id = out ∧
      d'.writeBranches d'.outputOf id = out) ∨
    ∃ err err₁ err₂ job' d', l.compileSource job.document.path t = .error err ∧
      compile l id job = .error err₁ job' ∧ compileInside l id job.document = .error err₂ d' ∧
      (err.SameFault err₁ ∧ err₁.detail = err.detail) ∧
      err.SameFault err₂ ∧ err₂.detail = err.detail := by
  have huniform : l.Uniform := by
    rcases hl with rfl | ⟨base, rfl⟩
    · exact Script.language_uniform
    · exact Stylesheet.language_uniform base
  have hoc := compile_outcome huniform hb hc
  have hagree := compileInside_agree huniform job.document.path (lt_size_of_branches hb) hb rfl
  rw [show Branch.text [.text t] = t by simp [Branch.text]] at hagree
  generalize l.compileSource job.document.path t = r at hoc hagree
  generalize compile l id job = r1 at hoc
  generalize compileInside l id job.document = r2 at hagree
  cases hagree with
  | @ok d' =>
    cases hoc with
    | @ok job' _ hbranches hwrite =>
      exact .inl ⟨_, job', d', rfl, rfl, rfl, hbranches, hwrite, rfl⟩
  | @error err err₂ d' h2 =>
    cases hoc with
    | @error _ err₁ job' h1 =>
      exact .inr ⟨err, err₁, err₂, job', d', rfl, rfl, rfl, ⟨h1, h1.detail_eq⟩, h2, h2.detail_eq⟩

def pageScript : String := "(function () \x7b var count = 1; f(count) \x7d)()"

def scriptPage : Job where
  document :=
    { nodes := #[
        { kind := .root, place := .startOf "page", branches := [[.node 1]] },
        { kind := .script, place := .startOf "page", branches := [[.text pageScript]] }] }

theorem compile_agrees_scriptPage :
    scriptPage.document.branches 1 = [[.text pageScript]] ∧
    ((∃ out job' d',
      Script.language.compileSource scriptPage.document.path pageScript = .ok out ∧
      compile Script.language 1 scriptPage = .ok () job' ∧
      compileInside Script.language 1 scriptPage.document = .ok () d' ∧
      (pageScript ≠ "" → job'.document.branches 1 = [[.text out]]) ∧
      job'.document.writeBranches job'.document.outputOf 1 = out ∧
      d'.writeBranches d'.outputOf 1 = out) ∨
    ∃ err err₁ err₂ job' d',
      Script.language.compileSource scriptPage.document.path pageScript = .error err ∧
      compile Script.language 1 scriptPage = .error err₁ job' ∧
      compileInside Script.language 1 scriptPage.document = .error err₂ d' ∧
      (err.SameFault err₁ ∧ err₁.detail = err.detail) ∧
      err.SameFault err₂ ∧ err₂.detail = err.detail) :=
  have hb : scriptPage.document.branches 1 = [[.text pageScript]] := rfl
  ⟨hb, compile_agrees (.inl rfl) hb rfl⟩

end Region

end Stencil
