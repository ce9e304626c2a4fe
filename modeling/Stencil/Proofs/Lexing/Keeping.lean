import Stencil.Proofs.Doc.Tending
import Stencil.Proofs.Lexing.Tokens

/-!
# Splitting keeps trees apart

Whatever the grammar, a run that splits text into tokens and takes in or dissolves the nodes it
meets holds each node once: one rule (`Run.Held.step`), a stretch of text (`Run.Held.read`), a branch
with its nodes (`Run.Held.feed`). So **a document stays a collection of trees when it is split into tokens**,
which is `Grammar.tokenize_tended`.
-/

namespace Stencil

open List

variable {d d' : Document} {L : List NodeId} {id : NodeId} {b : Branch} {σ : Type}

namespace Run

variable [DecidableEq σ] {g : Grammar σ} {r r' : Run σ}
  {s : String}

theorem Held.step (hr : r.Held d L) (h : r.step g d = .ok r' d') : Goes d d' r' L :=
  (goes_kept d L).step hr.goes h

theorem Held.read (hr : r.Held d L) (h : r.read g s d = .ok r' d') : Goes d d' r' L :=
  (goes_kept d L).read hr.goes h

/-- A way to treat nodes that takes them in or takes them apart. -/
def TakesIn (visit : NodeId → Run σ → Edit (Run σ)) : Prop :=
  ∀ {d d' : Document} {r r' : Run σ} {id : NodeId} {L : List NodeId}, r.Held d (id :: L) →
    visit id r d = .ok r' d' → Goes d d' r' L

variable {visit : NodeId → Run σ → Edit (Run σ)}

section Feed

variable (hv : TakesIn visit)
include hv

theorem feeds_goes : Feeds g visit fun L d' r' => Goes d d' r' L where
  read h hr := h.trans (h.held.read hr)
  visit h hid := (h.sublist (sublist_cons_self _ _)).trans (hv h.held hid)

theorem Held.feed (hr : r.Held d (b.nodes ++ L))
    (h : Run.feed g visit b s r d = .ok r' d') : Goes d d' r' L :=
  (feeds_goes hv).feed hr.goes h

theorem Held.feed_all {bs : List Branch} (hr : r.Held d (bs.flatMap Branch.nodes ++ L))
    (h : bs.foldlM (fun r b => Run.feed g visit b "" r) r d = .ok r' d') : Goes d d' r' L :=
  (feeds_goes hv).feed_all hr.goes h

end Feed

omit [DecidableEq σ] in
theorem finish_eq_ok : r.finish g d = .ok b d' ↔
    r.opened = [] ∧ (∀ s ∈ r.states, g.mayEnd s = true) ∧ b = r.out.reverse ∧ d' = d := by
  have hends : r.states.find? (!g.mayEnd ·) = none ↔ ∀ s ∈ r.states, g.mayEnd s = true := by
    simp
  rw [← hends]
  unfold finish
  cases ho : r.opened with
  | cons t ts => exact ⟨fun h => (by cases h), fun h => (by cases h.1)⟩
  | nil =>
    cases hfind : r.states.find? (!g.mayEnd ·) with
    | some state => exact ⟨fun h => (by cases h), fun h => (by cases h.2.1)⟩
    | none =>
      constructor
      · intro h
        cases h
        exact ⟨rfl, rfl, rfl, rfl⟩
      · rintro ⟨-, -, rfl, rfl⟩
        rfl

omit [DecidableEq σ] in
theorem Held.finish (hr : r.Held d L) (h : r.finish g d = .ok b d') :
    d' = d ∧ d.Grove (b.nodes ++ L) := by
  obtain ⟨hopened, -, rfl, rfl⟩ := finish_eq_ok.mp h
  refine ⟨rfl, hr.grove.perm (List.Perm.append_right _ ?_)⟩
  rw [loose, pile, hopened, Branch.nodes_reverse]
  exact (reverse_perm _).symm

theorem tended_of_feed (hv : TakesIn visit) {b' : Branch} {place : Place} {d1 : Document}
    (h : d.Grove (b.nodes ++ L)) (hfeed : Run.feed g visit b "" { place } d = .ok r' d1)
    (hfin : r'.finish g d1 = .ok b' d') : Document.Tended d d' b'.nodes L ∧ d.Steady d' := by
  have hr : ({ place } : Run σ).Held d (b.nodes ++ L) :=
    ⟨h, fun t ht => absurd ht not_mem_nil⟩
  have hgoes := hr.feed hv hfeed
  obtain ⟨rfl, hgrove⟩ := hgoes.held.finish hfin
  exact ⟨⟨hgrove, hgoes.frame⟩, hgoes.steady⟩

theorem feed_eq_read {visit : NodeId → Run σ → Edit (Run σ)} (hb : b.nodes = [])
    (stretch : String) (r : Run σ) : feed g visit b stretch r = r.read g (stretch ++ b.text) := by
  induction b generalizing stretch with
  | nil =>
    rw [feed, Branch.text, map_nil, String.join_nil, String.append_empty]
  | cons f b ih =>
    cases f with
    | node id => cases hb
    | text s =>
      rw [feed, ih hb, String.append_assoc]
      simp [Branch.text]

end Run

theorem Edit.mapBranches_single
    (h : d.branches id = [b]) (f : Branch → Edit Branch) : Edit.mapBranches id f d =
      (f b >>= fun b' => Edit.apply (·.setBranch id 0 b')) (d.setBranch id 0 []) := by
  have hb : d.branch id 0 = b := by
    rw [Document.branch, Node.branch, ← Document.branches, h]
    rfl
  have hmap : Edit.mapBranches id f d = ((List.range (d.branches id).length).forM fun i => do
      let b ← f (← Edit.takeBranch id i)
      Edit.apply (·.setBranch id i b) : Edit Unit) d := rfl
  rw [hmap, h, List.length_singleton, List.range_one, List.forM_eq_forM, List.forM_cons,
    List.forM_nil, bind_pure_unit]
  show (f (d.branch id 0) >>= fun b' => Edit.apply (·.setBranch id 0 b')) (d.setBranch id 0 []) = _
  rw [hb]

namespace Document

theorem Steady.setBranch {i : Nat}
    (hi : i < (d.branches id).length) : d.Steady (d.setBranch id i b) := by
  refine .modify rfl rfl fun hlen => ?_
  have hzero : i = 0 := by rw [branches] at hi; omega
  rw [hzero, Node.setBranch_zero, length_cons, length_tail, hlen]

theorem Grove.clear {L' : List NodeId} (h : d.Grove (L' ++ (id :: L))) :
    (d.clear id).Grove (L' ++ (d.kids id ++ L)) ∧
      d.Frame (d.clear id) (d.kids id ++ (L' ++ L)) := by
  have hmid : d.Grove (id :: (L' ++ L)) := h.perm perm_middle
  refine ⟨hmid.tended_clear.grove.perm ?_, .modify fun y hy => ?_⟩
  · rw [← append_assoc, ← append_assoc]
    exact perm_append_comm.append_right L
  · rcases mem_append.mp hy with hy | hy
    · exact h.not_reaches_mem (d.kids_sub id hy)
    · exact hmid.not_reaches_head hy

end Document

namespace Grammar

open Run (TakesIn Goes)
open Document (ofSource root ofSource_eq grove_ofSource setBranch node modify_self)

variable [DecidableEq σ] {g : Grammar σ} {path source : String}
  {top : NodeId} {through enter : List Kind} {visit : NodeId → Run σ → Edit (Run σ)}

theorem tokenizeBranches_tended (hv : TakesIn visit) (h : d.Grove (top :: L))
    (hr : Reaches d.refs top id) (hok : g.tokenizeBranches visit id d = .ok () d') :
    Document.Tended d d' [top] L ∧ d.Steady d' := by
  rw [tokenizeBranches_eq] at hok
  have key := h.tended_mapBranches hr (I := fun d' => d.size ≤ d'.size ∧ d.Steady d')
    ⟨le_refl _, .refl d⟩ ?_ ?_ hok
  · exact ⟨key.2, key.1.2⟩
  · rintro d1 i b ⟨hle, hsteady⟩ hi
    refine ⟨?_, hsteady.trans hle (.setBranch hi)⟩
    rw [Document.setBranch, Document.size_modify]
    exact hle
  · rintro d1 b b' d2 L ⟨hle, hsteady⟩ hgrove hf
    obtain ⟨r', d3, hfeed, hfin⟩ := bind_eq_ok.mp hf
    obtain ⟨htended, hsteady2⟩ := Run.tended_of_feed hv hgrove hfeed hfin
    exact ⟨⟨le_trans hle htended.frame.size_le, hsteady.trans hle hsteady2⟩, htended⟩

theorem visit_takesIn (levels : Nat) : TakesIn (g.visit through enter levels) := by
  induction levels with
  | zero =>
    intro d d' r r' id L hr h
    obtain ⟨rfl, rfl⟩ := pure_eq_ok.mp h
    exact (hr.sublist (sublist_cons_self _ _)).goes
  | succ n ih =>
    intro d d' r r' id L hr h
    rcases visit_succ_eq_ok h with ⟨-, h⟩ | ⟨rfl, ⟨-, htok⟩ | rfl⟩
    · -- the node is dissolved
      obtain ⟨hgrove, hframe⟩ := hr.grove.clear
      have hr1 : (r.seek (d.place id)).Held (d.clear id) (d.kids id ++ L) :=
        (hr.of_frame (hframe.mono ?_) hgrove).of_pile rfl
      · have hgoes := hr1.feed_all ih h
        refine ⟨hgoes.held, .trans (hframe.mono ?_) hgoes.frame,
          .trans hframe.size_le (.modify rfl rfl fun _ => rfl) hgoes.steady⟩
        exact fun x hx => mem_append_right _ (mem_append_right _ hx)
      · exact fun x hx => mem_append_right _ (mem_append_left _ hx)
    · -- its branches have runs of their own
      have hgrove : d.Grove (id :: (r.loose ++ L)) := hr.grove.perm perm_middle
      obtain ⟨htended, hsteady⟩ := tokenizeBranches_tended ih hgrove .refl htok
      have hgrove1 : d'.Grove (id :: (r.loose ++ L)) := htended.grove
      have hr1 : r.Held d' (id :: L) :=
        hr.of_frame (htended.frame.mono (subset_append_left _ _))
          (hgrove1.perm perm_middle.symm)
      exact ⟨hr1.append_node, htended.frame.mono (subset_append_right _ _), hsteady⟩
    · exact hr.append_node.goes

theorem tokenize_tended (h : d.Grove (top :: L)) (hr : Reaches d.refs top id)
    (hok : g.tokenize through enter id d = .ok () d') : Document.Tended d d' [top] L ∧ d.Steady d' := by
  rw [tokenize_eq] at hok
  exact tokenizeBranches_tended (visit_takesIn d.size) h hr hok

theorem branches_ofSource (path t : String) : ∃ b : Branch,
    (ofSource path t).branches root = [b] ∧ b.nodes = [] ∧ b.text = t := by
  rw [ofSource_eq]
  by_cases h : t = ""
  · exact ⟨[], by simp [Document.branches, node, h], rfl, by simp [Branch.text, h]⟩
  · exact ⟨[.text t], by simp [Document.branches, node, h], rfl, by simp [Branch.text]⟩

theorem setBranch_ofSource (path source : String) : (ofSource path source).setBranch root 0 [] =
    ⟨#[{ kind := .root, place := .startOf path, branches := [[]] }]⟩ := by
  rw [ofSource_eq]
  rfl

theorem tokenize_ofSource (g : Grammar σ) (path source : String) :
    g.tokenize [] [] root (ofSource path source) =
      ((({ place := .startOf path } : Run σ).read g source >>= fun r => r.finish g) >>=
        fun b => Edit.apply (·.setBranch root 0 b)) ((ofSource path source).setBranch root 0 []) := by
  obtain ⟨b, hb, hn, ht⟩ := branches_ofSource path source
  have hplace : (ofSource path source).place root = .startOf path := by rw [ofSource_eq]; rfl
  rw [tokenize_eq, tokenizeBranches_eq, Edit.mapBranches_single hb, Run.feed_eq_read hn,
    String.empty_append, ht, hplace]

omit [DecidableEq σ] in
theorem held_start (path source : String) : ({ place := .startOf path } : Run σ).Held
    ((ofSource path source).setBranch root 0 []) [root] := by
  obtain ⟨hg, -⟩ := (grove_ofSource path source).takeBranch 0
  exact ⟨hg.sublist (sublist_append_right _ _), fun x hx => absurd hx not_mem_nil⟩

theorem exists_run_of_tokenize (h : g.tokenize [] [] root (ofSource path source) = .ok () d) :
    ∃ r d1, ({ place := .startOf path } : Run σ).read g source
        ((ofSource path source).setBranch root 0 []) = .ok r d1 ∧
      r.finish g d1 = .ok r.out.reverse d1 ∧ d = d1.setBranch root 0 r.out.reverse ∧
      d.node root = { kind := .root, place := .startOf path, branches := [r.out.reverse] } ∧
      d1.Frame d (Branch.nodes r.out.reverse) := by
  rw [tokenize_ofSource] at h
  obtain ⟨b, d1, h, hset⟩ := bind_eq_ok.mp h
  obtain ⟨r, d2, hread, hfinish⟩ := bind_eq_ok.mp h
  cases hset
  have hgoes := (held_start path source).read hread
  obtain ⟨rfl, hgrove⟩ := hgoes.held.finish hfinish
  obtain ⟨-, -, rfl, -⟩ := Run.finish_eq_ok.mp hfinish
  refine ⟨r, d1, hread, hfinish, rfl, ?_, .modify fun y hy =>
    (hgrove.perm perm_append_comm).not_reaches_head hy⟩
  have hlt : root < d1.size := hgrove.lt_of_mem (mem_append_right _ mem_cons_self)
  beta_reduce
  rw [setBranch, modify_self hlt, hgoes.frame.node_head, ofSource_eq]
  simp [setBranch, Document.modify, node, Node.setBranch_zero]

end Grammar

end Stencil
