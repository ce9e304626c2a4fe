import Stencil.Proofs.Doc.Rebuilding
import Stencil.Proofs.Script.Mirroring
import Stencil.Proofs.Stylesheet.Blanks
import Stencil.Proofs.Work

/-!
# Compiling media keeps trees apart

A script or a stylesheet that is compiled where it stands is split into tokens, and then only loses
blanks and gets names; a script also gets a space in front of some braces. So **compiling a region
leaves trees**, whichever way it is compiled (`Region.compile_sustained`).
-/

namespace Stencil

open Branch Document List

variable {d d' : Document} {L : List NodeId} {id : NodeId} {through : List Kind}

namespace Script

theorem renamedScript_thinned (d : Document) (ds : List Declaration) (script : NodeId) :
    d.Thinned (newScript d ds script) :=
  (Thinned.foldl fun d _ _ => .modifyNaming d _ _).trans (.foldl fun d _ _ => .modifyNaming d _ _)

theorem openScope_sustained {scope : NodeId} (hlt : scope < d.size) (h : d.Grove L) :
    d.Sustained (openScope d scope) L := by
  obtain ⟨hg, hsize, hrefs⟩ := h.create_text .requiredSpace (d.place scope) " "
  have hapart : ∀ c ∈ Branch.nodes [.node d.size], ¬ Reaches
      ((d.create .requiredSpace (d.place scope)).2.appendText d.size " ").refs c scope := by
    intro c hc hr
    obtain rfl := mem_singleton.mp hc
    rcases hr.eq_or_child with heq | ⟨e, he, -⟩
    · exact ne_of_gt hlt heq
    · rw [hrefs] at he
      cases he
  have hpre := Grove.prepend hg (hlt.trans hsize) hapart
  exact ⟨hpre.grove, le_trans (le_of_lt hsize) hpre.size_le⟩

theorem separateBraces_sustained (h : d.Grove L) (script : NodeId) :
    d.Sustained (separateBraces d script) L := by
  refine h.sustained_foldl (fun {scope d} _ hlt h => ?_) fun x hx => h.lt_of_descendant hx
  split_ifs
  · exact openScope_sustained hlt h
  · exact .refl h

theorem process_sustained {enter : List Kind} (h : d.Grove L) (hlt : id < d.size)
    (hok : process through enter id d = .ok () d') : d.Sustained d' L := by
  obtain ⟨_, d1, htok, hok⟩ := bind_eq_ok.mp hok
  obtain ⟨_, d2, hcompress, hok⟩ := bind_eq_ok.mp hok
  obtain ⟨report, d3, hminify, hok⟩ := bind_eq_ok.mp hok
  obtain ⟨-, rfl⟩ := pure_eq_ok.mp hok
  cases hcompress
  have h1 : d.Sustained d1 L := h.inside hlt fun hg hr =>
    (Grammar.tokenize_tended hg hr htok).1.sustained
  have h2 := (compressNode_rewrites d1.size true id (.refl d1)).thinned.sustained h1.grove
  obtain ⟨ds, -, -, rfl⟩ := minify_eq_ok hminify
  have h3 := (renamedScript_thinned (compress d1 id) ds id).sustained h2.grove
  exact h1.trans (h2.trans (h3.trans (separateBraces_sustained h3.grove id)))

end Script

namespace Stylesheet

theorem process_sustained {base : Option String} {enter : List Kind} (h : d.Grove L)
    (hlt : id < d.size) (hok : process base through enter id d = .ok () d') : d.Sustained d' L := by
  obtain ⟨_, d1, htok, hok⟩ := bind_eq_ok.mp hok
  cases hok
  have h1 : d.Sustained d1 L := h.inside hlt fun hg hr =>
    (Grammar.tokenize_tended hg hr htok).1.sustained
  have h2 := (normalizeUrls_rewrites base id d1).thinned.sustained h1.grove
  exact h1.trans (h2.trans ((compressNode_keepsTo _ _ true id _ (.refl _)).thinned.sustained h2.grove))

end Stylesheet

/-- A language whose regions stay trees when they are compiled where they stand. -/
def Language.Sustains (l : Language) : Prop :=
  ∀ {through enter : List Kind} {id : NodeId} {d d' : Document} {L : List NodeId}, d.Grove L →
    id < d.size → l.process through enter id d = .ok () d' → d.Sustained d' L

theorem Script.language_sustains : Script.language.Sustains :=
  fun h hlt hok => Script.process_sustained h hlt hok

theorem Stylesheet.language_sustains (base : Option String) : (Stylesheet.language base).Sustains :=
  fun h hlt hok => Stylesheet.process_sustained h hlt hok

namespace Region

variable {l : Language}

def flattenFragment (below : NodeId → Document → Document) (built : Branch × Document) :
    Fragment → Branch × Document
  | .text s => (built.1.stack (.text s), built.2)
  | .node child =>
    if built.2.hasKind child contentKinds then
      (built.1.stack (.text (built.2.sourceOf child)), built.2)
    else if (built.2.kind child).isTemplateBlock then
      (built.1.stack (.node child), below child built.2)
    else (built.1.stack (.node child), built.2)

def flattenBranch (below : NodeId → Document → Document) (id : NodeId) (d : Document) (i : Nat) :
    Document :=
  let built := (d.branch id i).foldl (flattenFragment below) ([], d)
  built.2.setBranch id i built.1.reverse

theorem flatten_succ (levels : Nat) (id : NodeId) (d : Document) : flatten (levels + 1) id d =
    (List.range (d.branches id).length).foldl (flattenBranch (flatten levels) id) d := by
  rw [flatten]
  refine congrArg (fun g => List.foldl g d (List.range (d.branches id).length))
    (funext fun e => funext fun i => ?_)
  refine congrArg (fun built : Branch × Document => built.2.setBranch id i built.1.reverse)
    (foldl_ext _ _ _ fun built f _ => ?_)
  cases f <;> rfl

theorem foldl_flattenFragment {below : NodeId → Document → Document}
    (hbelow : ∀ x d, Pruned d (below x d)) (b : Branch) (built : Branch × Document) :
    built.2.Pruned (b.foldl (flattenFragment below) built).2 ∧
      (Branch.nodes (b.foldl (flattenFragment below) built).1).Sublist
        (b.nodes.reverse ++ Branch.nodes built.1) := by
  induction b generalizing built with
  | nil => exact ⟨.refl _, .refl _⟩
  | cons f b ih =>
    obtain ⟨hpruned, hsub⟩ := ih (flattenFragment below built f)
    rw [foldl_cons]
    cases f with
    | text s =>
      refine ⟨hpruned, ?_⟩
      rwa [flattenFragment, nodes_stack_text] at hsub
    | node x =>
      have hone : built.2.Pruned (flattenFragment below built (.node x)).2 ∧
          (Branch.nodes (flattenFragment below built (.node x)).1).Sublist
            (x :: Branch.nodes built.1) := by
        rw [flattenFragment]
        split_ifs
        · rw [nodes_stack_text]
          exact ⟨.refl _, sublist_cons_self _ _⟩
        · rw [nodes_stack_node]
          exact ⟨hbelow x _, .refl _⟩
        · rw [nodes_stack_node]
          exact ⟨.refl _, .refl _⟩
      refine ⟨hone.1.trans hpruned, hsub.trans ?_⟩
      rw [nodes_cons_node, reverse_cons, append_assoc]
      exact hone.2.append_left _

theorem flatten_pruned (levels : Nat) (id : NodeId) (d : Document) :
    d.Pruned (flatten levels id d) := by
  induction levels generalizing id d with
  | zero => exact .refl d
  | succ levels ih =>
    rw [flatten_succ]
    refine List.foldlRecOn (motive := d.Pruned) _ _ (.refl d) fun e h k hk => ?_
    obtain ⟨hpruned, hsub⟩ := foldl_flattenFragment ih (e.branch id k) ([], e)
    refine h.trans (hpruned.setBranch (by rw [h.length_eq]; exact mem_range.mp hk) ?_)
    rw [nodes_nil, append_nil] at hsub
    rw [nodes_reverse]
    exact reverse_sublist.mp (by rwa [reverse_reverse])

theorem compile_eq_ok {j j' : Job} (hok : compile l id j = .ok () j') :
    compileInside l id (flatten j.document.size id j.document) = .ok () j'.document ∨
      ∃ compiled, j'.document =
        (flatten j.document.size id j.document).setChildren id [.text compiled] := by
  rw [compile, Work.apply_bind, Work.document_bind] at hok
  set j1 : Job := { j with document := flatten j.document.size id j.document }
  have hinside : ∀ s : Session, Work.edit (compileInside l id) ⟨s, j1.document⟩ = .ok () j' →
      compileInside l id j1.document = .ok () j'.document := by
    intro s hok
    obtain ⟨d, hd, rfl⟩ := Work.edit_eq_ok.mp hok
    exact hd
  cases hplain : plainText? j1.document id with
  | none =>
    simp only [hplain] at hok
    exact .inl (hinside j.session hok)
  | some source =>
    simp only [hplain] at hok
    obtain ⟨result, j2, htask, hok⟩ := bind_eq_ok.mp hok
    obtain ⟨s, -, rfl⟩ := Work.task_eq_ok.mp htask
    cases result with
    | error e => exact .inl (hinside s hok)
    | ok compiled =>
      obtain rfl := Work.apply_eq_ok.mp hok
      exact .inr ⟨compiled, rfl⟩

theorem compile_sustained {j j' : Job} (hl : l.Sustains) (hlt : id < j.document.size)
    (h : j.document.Grove L) (hok : compile l id j = .ok () j') :
    j.document.Sustained j'.document L := by
  have hflat := (flatten_pruned j.document.size id j.document).thinned.sustained h
  rcases compile_eq_ok hok with hd | ⟨compiled, heq⟩
  · exact hflat.trans (hl hflat.grove (lt_of_lt_of_le hlt hflat.size_le) hd)
  · rw [heq]
    exact hflat.trans ((Thinned.setChildren _ id rfl).sustained hflat.grove)

end Region

end Stencil
