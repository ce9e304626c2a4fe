import Stencil.Proofs.Doc.Enclave
import Stencil.Proofs.Lexing.Keeping

/-!
# Splitting spares enclaves

A run that splits text into tokens changes the tokens it makes, and the nodes it dissolves or enters.
Where raw output is neither dissolved nor entered a door is kept as it is, so **the enclave stays
intact, whatever the grammar** (`Grammar.tokenize_intact`).
-/

namespace Stencil

open Document List
open Enclave (admitsAll_nil)

variable {d d' : Document} {id : NodeId} {e : Enclave} {σ : Type}

namespace Run

variable {r r' : Run σ} {s : String}

structure Outside (e : Enclave) (d : Document) (r : Run σ) : Prop where
  intact : e.Intact d
  pile : r.pile.Outside e

namespace Outside

theorem of_pile (h : r.Outside e d) (hp : r'.pile = r.pile) : r'.Outside e d :=
  ⟨h.intact, hp ▸ h.pile⟩

theorem append_text (h : r.Outside e d) (s : String) : (r.append (.text s)).Outside e d :=
  ⟨h.intact, by rw [pile_append]; exact h.pile.add fun _ hb => hb.stack_text s⟩

theorem append_node (h : r.Outside e d) (hid : e.Admits id) : (r.append (.node id)).Outside e d :=
  ⟨h.intact, by rw [pile_append]; exact h.pile.add fun _ hb => hb.stack_node hid⟩

theorem start {kind : Kind} (hr : r.Outside e d) (h : r.start kind d = .ok r' d') :
    r'.Outside e d' := by
  obtain ⟨rfl, rfl⟩ := start_eq_ok h
  refine ⟨hr.intact.create kind r.place, ?_, hr.pile.out⟩
  exact forall_mem_cons.mpr
    ⟨⟨hr.intact.not_inside_of_le (le_refl _), admitsAll_nil⟩, hr.pile.opened⟩

theorem stop (hr : r.Outside e d) (h : r.stop d = .ok r' d') : r'.Outside e d' := by
  obtain ⟨t, ts, ho, rfl, rfl⟩ := stop_eq_ok h
  have hopened := hr.pile.opened
  rw [Run.pile, ho, map_cons, forall_mem_cons] at hopened
  obtain ⟨⟨ht, hcontent⟩, hopened⟩ := hopened
  refine append_node ⟨?_, hopened, hr.pile.out⟩ (Enclave.admits_outside ht)
  exact hr.intact.setBranch ht (Enclave.admitsAll_reverse.mpr hcontent) 0

theorem kept (e : Enclave) : Kept fun d (r : Run σ) => r.Outside e d :=
  ⟨of_pile, append_text, start, stop⟩

end Outside

/-- A way to treat nodes that keeps a run outside an enclave. -/
def StaysOutside (e : Enclave) (visit : NodeId → Run σ → Edit (Run σ)) : Prop :=
  ∀ {d d' : Document} {r r' : Run σ} {id : NodeId}, r.Outside e d → e.Admits id →
    visit id r d = .ok r' d' → r'.Outside e d'

variable [DecidableEq σ] {g : Grammar σ} {visit : NodeId → Run σ → Edit (Run σ)}

section Feed

variable (hv : StaysOutside e visit)
include hv

theorem feeds_outside : Feeds g visit fun L d r => r.Outside e d ∧ ∀ c ∈ L, e.Admits c where
  read h hread := ⟨(Outside.kept e).read h.1 hread, h.2⟩
  visit h hid := ⟨hv h.1 (h.2 _ mem_cons_self) hid, (forall_mem_cons.mp h.2).2⟩

theorem Outside.feed {b : Branch} (hb : e.AdmitsAll b) (hr : r.Outside e d)
    (h : Run.feed g visit b s r d = .ok r' d') : r'.Outside e d' :=
  ((feeds_outside hv).feed ⟨hr, by rwa [append_nil]⟩ h).1

theorem Outside.feed_all {bs : List Branch} (hbs : ∀ c ∈ bs.flatMap Branch.nodes, e.Admits c)
    (hr : r.Outside e d) (h : bs.foldlM (fun r b => Run.feed g visit b "" r) r d = .ok r' d') :
    r'.Outside e d' :=
  ((feeds_outside hv).feed_all ⟨hr, by rwa [append_nil]⟩ h).1

end Feed

end Run

namespace Grammar

open Run (StaysOutside)

variable [DecidableEq σ] {g : Grammar σ}
  {through enter : List Kind} {visit : NodeId → Run σ → Edit (Run σ)}

theorem tokenizeBranches_intact (hv : StaysOutside e visit) (h : e.Intact d) (hid : ¬ e.inside id)
    (hok : g.tokenizeBranches visit id d = .ok () d') : e.Intact d' := by
  rw [tokenizeBranches_eq] at hok
  refine mapBranches_ind (P := fun _ d => e.Intact d) hok h fun i _ d1 b d2 h1 hrun => ?_
  obtain ⟨r, d3, hfeed, hfin⟩ := bind_eq_ok.mp hrun
  have hstart : Run.Outside e (d1.setBranch id i []) ({ place := d.place id } : Run σ) :=
    ⟨h1.setBranch hid admitsAll_nil i, fun t ht => absurd ht not_mem_nil, admitsAll_nil⟩
  have hr := hstart.feed hv (h1.admitsAll_branch hid i) hfeed
  obtain ⟨-, -, rfl, rfl⟩ := Run.finish_eq_ok.mp hfin
  exact hr.intact.setBranch hid (Enclave.admitsAll_reverse.mpr hr.pile.out) i

section

variable (hthrough : Kind.rawOutput ∉ through) (henter : Kind.rawOutput ∉ enter)
include hthrough henter

theorem visit_staysOutside (levels : Nat) : StaysOutside e (g.visit through enter levels) := by
  induction levels with
  | zero =>
    intro d d' r r' id hr _ h
    obtain ⟨rfl, rfl⟩ := pure_eq_ok.mp h
    exact hr
  | succ n ih =>
    intro d d' r r' id hr hid h
    -- a door is of a kind that is kept as it is
    have hout : ∀ {kinds : List Kind}, Kind.rawOutput ∉ kinds → d.hasKind id kinds = true →
        ¬ e.inside id := fun hraw hk hin => by
      rw [hasKind, hr.intact.kind_eq hin, e.door_kind (hid hin)] at hk
      exact hraw (contains_iff_mem.mp hk)
    rcases visit_succ_eq_ok h with ⟨hdissolve, h⟩ | ⟨rfl, ⟨hinto, htok⟩ | rfl⟩
    · have hnot := hout hthrough hdissolve
      have hr1 : (r.seek (d.place id)).Outside e (d.clear id) :=
        ⟨hr.intact.setChildren hnot admitsAll_nil, hr.pile⟩
      exact hr1.feed_all ih (fun c hc => hr.intact.admits hnot hc) h
    · have hintact := tokenizeBranches_intact ih hr.intact (hout henter hinto) htok
      exact Run.Outside.append_node ⟨hintact, hr.pile⟩ hid
    · exact hr.append_node hid

theorem tokenize_intact (h : e.Intact d) (hid : ¬ e.inside id)
    (hok : g.tokenize through enter id d = .ok () d') : e.Intact d' := by
  rw [tokenize_eq] at hok
  exact tokenizeBranches_intact (visit_staysOutside hthrough henter d.size) h hid hok

end

end Grammar

end Stencil
