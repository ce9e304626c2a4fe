import Stencil.Compile
import Stencil.Proofs.Blocks.Nesting
import Stencil.Proofs.Lexing.Progress

/-!
# Edits stop for a fault of the text

A scan has a limit on its steps and an error for rules that never move on, which does not arise with the
grammars at hand (`lexing_ends`). The other edits of a compilation stop with errors of their own, for
blocks that are left open and for scopes that cannot be made out. So **whatever stops an edit of a
compilation, it is not the limit** (`Edit.Ends`).
-/

namespace Stencil

open Document List

variable {κ α β σ : Type} {id : NodeId} {through enter : List Kind}

namespace Edit

/-- If the edit stops, then not because rules never move on. -/
def Ends (x : Edit α) : Prop := ∀ d, Yields x d (fun _ _ => True) fun e _ => Run.Ends e

theorem Ends.bind {x : Edit α} {f : α → Edit β} (hx : Ends x) (hf : ∀ a, Ends (f a)) :
    Ends (x >>= f) := fun d =>
  (hx d).bind fun a d' _ => hf a d'

theorem ends_apply (f : Document → Document) : Ends (Edit.apply f) := fun d =>
  .of_ok (t := f d) rfl trivial

theorem ends_tokenize [DecidableEq σ] {g : Grammar σ} (hg : g.Lively) :
    Ends (g.tokenize through enter id) := fun _ =>
  ⟨fun _ _ _ => trivial, fun e d' he => hg.terminates.error_ends _ _ _ _ e d' he⟩

end Edit

theorem Nesting.nestNode_ends [DecidableEq κ] (n : Nesting κ) (levels : Nat) (id : NodeId) :
    Edit.Ends (n.nestNode levels id) := by
  induction levels generalizing id with
  | zero => exact fun d => .pure trivial
  | succ levels ih =>
    have hlist : ∀ (b : Branch) (p : Progress κ),
        Edit.Ends (b.foldlM (n.takeFragment (n.nestNode levels)) p) := by
      intro b
      induction b with
      | nil => exact fun p d => .pure trivial
      | cons f b ihb =>
        intro p
        rw [foldlM_cons]
        refine Edit.Ends.bind ?_ ihb
        cases f with
        | text s => exact fun d => .pure trivial
        | node x =>
          exact fun d => ⟨fun _ _ _ => trivial, fun e d' he => (ih x d).error e d' (error_of_take he)⟩
    refine fun d => mapBranches_yields (P := fun _ _ => True) trivial fun i _ d _ =>
      Edit.Ends.bind (hlist _ _) (fun p d => ?_) _
    split
    · exact .bind_ok rfl (.throw (by simp [Run.Ends, Error.IsFault]))
    · exact .pure trivial

theorem Nesting.nest_ends [DecidableEq κ] (n : Nesting κ) (id : NodeId) : Edit.Ends (n.nest id) :=
  fun d => .bind_ok rfl (n.nestNode_ends d.size id d)

namespace Script

theorem minify_ends (id : NodeId) : Edit.Ends (minify id) := by
  refine fun d => .bind_ok rfl ?_
  split
  · exact .throw (by simp [Run.Ends, Error.IsFault])
  · exact .of_ok rfl trivial

end Script

/-- Whatever a language is used for, it does not run out of steps. -/
def Language.Ends (l : Language) : Prop := ∀ through enter id, Edit.Ends (l.process through enter id)

theorem Language.Ends.compileSource {l : Language} {path source : String} {e : Error} (hl : l.Ends)
    (h : l.compileSource path source = .error e) : Run.Ends e := by
  rw [Language.compileSource] at h
  split at h
  case h_1 => cases h
  case h_2 e' d' he =>
    cases h
    exact (hl _ _ _ _).error e d' he

theorem Script.language_ends : Script.language.Ends := fun _ _ id =>
  (Edit.ends_tokenize grammar_lively).bind fun _ => (Edit.ends_apply _).bind fun _ =>
    (minify_ends id).bind fun _ _ => .pure trivial

theorem Stylesheet.language_ends (base : Option String) : (Stylesheet.language base).Ends := fun _ _ _ =>
  (Edit.ends_tokenize grammar_lively).bind fun _ => Edit.ends_apply _

theorem Markup.MediaType.language_ends (type : MediaType) (url : String) : (type.language url).Ends := by
  cases type with
  | script => exact Script.language_ends
  | stylesheet => exact Stylesheet.language_ends _

theorem Template.parse_ends : Edit.Ends Template.parse :=
  (Edit.ends_tokenize grammar_lively).bind fun _ => (Edit.ends_apply _).bind fun _ =>
    nesting.nest_ends root

theorem Markup.lex_ends : Edit.Ends Markup.lex := Edit.ends_tokenize grammar_lively

theorem Markup.nest_ends : Edit.Ends Markup.nest := nesting.nest_ends root

end Stencil
