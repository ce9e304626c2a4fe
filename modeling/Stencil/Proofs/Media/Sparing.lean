import Stencil.Proofs.Lexing.Sparing
import Stencil.Proofs.Media.Keeping

/-!
# Compiling media spares enclaves

When a script or a stylesheet is compiled where it stands, the passes go through all that is below it,
raw output included. But they change tokens of the language only, and these are of no kind that
templates have. So **an enclave stays intact** (`Region.compile_intact`).
-/

namespace Stencil

open Document List
open Enclave (admitsAll_nil admitsAll_text)

variable {d d' : Document} {id x : NodeId} {b : Branch} {e : Enclave}

namespace Script

theorem compressNode_intact (levels : Nat) (bracketed : Bool) (h : e.Intact d) :
    e.Intact (compressNode levels bracketed x d) := by
  induction levels generalizing bracketed x d with
  | zero => exact h
  | succ levels ih =>
    refine h.foldl fun d h i _ => compressBranch_induction (fun t _ hk h => ?_) (fun _ h => ih _ h)
      (by simp) h
    refine h.setChildren (h.not_inside_of_kind ?_) (admitsAll_text t)
    rcases hk with hk | hk <;> rw [hk] <;> decide

theorem renamedScript_intact {ds : List Declaration} (hds : declarations d id = .ok ds)
    (h : e.Intact d) : e.Intact (newScript d ds id) := by
  have hout : ∀ {x : NodeId}, d.kind x = .identifier → ¬ e.inside x := fun hk =>
    h.not_inside_of_kind (hk ▸ by decide)
  have hfollow : e.Intact (follow (linksOf d ds id) d) :=
    h.foldl fun d h l hl => h.modify_same (hout (kind_of_mem_linksOf hds hl)) rfl
  exact hfollow.foldl fun d h r hr => h.modify_same (hout (located_of_renaming hds hr).2) rfl

theorem separateBraces_intact (h : e.Intact d) : e.Intact (separateBraces d id) := by
  have hout : ∀ x ∈ d.descendants id [.scope] [], ¬ e.inside x := fun x hx =>
    h.not_inside_foreign (by decide) hx
  refine h.foldl fun d h scope hs => ?_
  split_ifs
  · have hnew := h.not_inside_of_le (le_refl d.size)
    have htext := (h.create .requiredSpace (d.place scope)).appendText hnew " "
    exact htext.prepend (hout scope hs)
      (forall_mem_singleton.mpr (Enclave.admits_outside hnew))
  · exact h

end Script

namespace Stylesheet

theorem normalizeUrls_intact (base : Option String) (h : e.Intact d) :
    e.Intact (normalizeUrls base id d) := by
  have hout : ∀ x ∈ d.descendants id [.cssUrl] [], ¬ e.inside x := fun x hx =>
    h.not_inside_foreign (by decide) hx
  refine h.foldl fun d h url hurl => h.setBranch (hout url hurl) (fun c hc => ?_) 0
  rw [nodes_normalizeValue] at hc
  exact h.admitsAll_branch (hout url hurl) 0 c hc

theorem compressNode_intact (levels : Nat) (edges : Bool) (h : e.Intact d) :
    e.Intact (compressNode levels edges x d) := by
  induction levels generalizing edges x d with
  | zero => exact h
  | succ levels ih =>
    refine h.foldl fun d h i _ => compressBranch_induction (fun t _ hk h => ?_) (fun _ h => ih _ h) h
    refine h.setChildren (h.not_inside_of_kind ?_) (admitsAll_text t)
    rcases hk with hk | hk <;> rw [hk] <;> decide

end Stylesheet

/-- A language that leaves alone the enclaves in its regions. -/
def Language.Spares (l : Language) : Prop :=
  ∀ {e : Enclave} {through enter : List Kind} {id : NodeId} {d d' : Document},
    Kind.rawOutput ∉ through → Kind.rawOutput ∉ enter → e.Intact d → ¬ e.inside id →
    l.process through enter id d = .ok () d' → e.Intact d'

theorem Script.language_spares : Script.language.Spares := by
  intro e through enter id d d' hthrough henter h hid hok
  obtain ⟨_, d1, htok, hok⟩ := bind_eq_ok.mp hok
  obtain ⟨_, d2, hcompress, hok⟩ := bind_eq_ok.mp hok
  obtain ⟨report, d3, hminify, hok⟩ := bind_eq_ok.mp hok
  obtain ⟨-, rfl⟩ := pure_eq_ok.mp hok
  cases hcompress
  have h1 := Grammar.tokenize_intact hthrough henter h hid htok
  have h2 := compressNode_intact (x := id) d1.size true h1
  obtain ⟨ds, hds, -, rfl⟩ := minify_eq_ok hminify
  exact separateBraces_intact (renamedScript_intact hds h2)

theorem Stylesheet.language_spares (base : Option String) : (Stylesheet.language base).Spares := by
  intro e through enter id d d' hthrough henter h hid hok
  obtain ⟨_, d1, htok, hok⟩ := bind_eq_ok.mp hok
  cases hok
  have h1 := Grammar.tokenize_intact hthrough henter h hid htok
  exact compressNode_intact _ true (normalizeUrls_intact base h1)

namespace Region

variable {l : Language}

theorem foldl_flattenFragment_intact {below : NodeId → Document → Document}
    (hbelow : ∀ {x : NodeId} {d : Document}, e.Intact d → ¬ e.inside x → e.Intact (below x d))
    (hb : e.AdmitsAll b) {p : Branch × Document} (h : e.Intact p.2) (hp : e.AdmitsAll p.1) :
    e.Intact (b.foldl (flattenFragment below) p).2 ∧
      e.AdmitsAll (b.foldl (flattenFragment below) p).1 := by
  induction b generalizing p with
  | nil => exact ⟨h, hp⟩
  | cons f b ih =>
    cases f with
    | text s => exact ih hb h (hp.stack_text s)
    | node x =>
      obtain ⟨hx, hb⟩ := forall_mem_cons.mp hb
      rw [foldl_cons, flattenFragment]
      split_ifs with hcontent hblock
      · exact ih hb h (hp.stack_text _)
      · -- raw output is no template block in this sense
        refine ih hb (hbelow h fun hin => ?_) (hp.stack_node hx)
        rw [h.kind_eq hin, e.door_kind (hx hin)] at hblock
        exact absurd hblock (by decide)
      · exact ih hb h (hp.stack_node hx)

theorem flatten_intact (levels : Nat) (h : e.Intact d) (hid : ¬ e.inside id) :
    e.Intact (flatten levels id d) := by
  induction levels generalizing id d with
  | zero => exact h
  | succ levels ih =>
    rw [flatten_succ]
    refine h.foldl fun d h i _ => ?_
    obtain ⟨hintact, hadmits⟩ := foldl_flattenFragment_intact ih (h.admitsAll_branch hid i)
      (p := ([], d)) h admitsAll_nil
    exact hintact.setBranch hid (Enclave.admitsAll_reverse.mpr hadmits) i

theorem compile_intact {j j' : Job} (hl : l.Spares) (h : e.Intact j.document) (hid : ¬ e.inside id)
    (hok : compile l id j = .ok () j') : e.Intact j'.document := by
  have hflat := flatten_intact j.document.size h hid
  rcases compile_eq_ok hok with hd | ⟨compiled, heq⟩
  · exact hl (by decide) (by decide) hflat hid hd
  · rw [heq]
    exact hflat.setChildren hid (admitsAll_text compiled)

end Region

end Stencil
