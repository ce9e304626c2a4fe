import Stencil.Proofs.Lexing.Keeping
import Stencil.Proofs.Lexing.Matching

/-!
# Reading without loss

In a grammar where the actions of every rule add exactly the text that they move past
(`Grammar.Lossless`), a run builds what it reads: one rule (`Run.step_reads`), a stretch of text
(`Run.read_reads`), and a branch with its nodes (`Run.feed_reads`), some of which are dissolved, some
read on their own and some kept (`Grammar.visit_faithful`). So **splitting a document into tokens
leaves its source as it was**, which is `Grammar.tokenize_retold`.
-/

namespace Stencil

open Branch Document List String

variable {d d' : Document} {L : List NodeId} {id x : NodeId} {b : Branch} {matched : List Char}
  {through : List Kind} {n : Nat} {σ : Type}

/-- A grammar whose rules add what they move past. `fits` says which stacks occur. -/
structure Grammar.Lossless {σ : Type} (g : Grammar σ) (fits : Stacks σ → Prop) : Prop where
  start : fits {}
  rule : ∀ s, fits s → ∀ r ∈ g.rules (s.states.headD g.initial), ∀ text matched rest,
    r.pattern.split? text = some (matched, rest) → ∀ out s',
    LexAction.emitAll (String.ofList matched) r.actions s = some (out, s') →
    fits s' ∧ out = if r.actions.any LexAction.shifts then String.ofList matched else ""

theorem Grammar.next?_eq_some {g : Grammar σ} {state : σ} {text : List Char}
    {r : Rule σ} (h : g.next? state text = some (r, matched)) :
    r ∈ g.rules state ∧ ∃ rest, r.pattern.split? text = some (matched, rest) := by
  obtain ⟨r', hr', hfire⟩ := exists_of_findSome?_eq_some h
  obtain ⟨⟨matched', rest⟩, hfire, heq⟩ := Option.map_eq_some_iff.mp hfire
  cases heq
  exact ⟨hr', rest, (Option.filter_eq_some_iff.mp hfire).1⟩

namespace Run

variable [DecidableEq σ] {g : Grammar σ} {fits : Stacks σ → Prop} {d'' : Document}
  {r r' r'' : Run σ} {s s' : String}

/-- A run has gone on and has built `s` more, and its stacks are as they can be. -/
structure Reads (fits : Stacks σ → Prop) (d : Document) (r : Run σ) (d' : Document) (r' : Run σ)
    (L : List NodeId) (s : String) : Prop extends Moves d r d' r' L s where
  fits_shape : fits (r'.shape d')

omit [DecidableEq σ] in
theorem Reads.trans (h : Reads fits d r d' r' L s) (h' : Reads fits d' r' d'' r'' L s') :
    Reads fits d r d'' r'' L (s ++ s') :=
  ⟨h.toMoves.trans h'.toMoves, h'.fits_shape⟩

omit [DecidableEq σ] in
theorem Reads.sublist {L' : List NodeId} (h : Reads fits d r d' r' L s) (hs : L'.Sublist L) :
    Reads fits d r d' r' L' s :=
  ⟨h.toMoves.sublist hs, h.fits_shape⟩

theorem step_reads (hg : g.Lossless fits) (hr : r.Sound d L) (hf : fits (r.shape d))
    (h : r.step g d = .ok r' d') :
    ∃ s, Reads fits d r d' r' L s ∧ s ++ String.ofList r'.ahead = String.ofList r.ahead := by
  obtain ⟨rule, matched, hnext, hperform⟩ := step_eq_ok h
  obtain ⟨hrule, rest, hsplit⟩ := Grammar.next?_eq_some hnext
  obtain ⟨e, hemit, hmoves⟩ := hr.perform hperform
  obtain ⟨hfits, rfl⟩ := hg.rule _ hf rule hrule _ _ _ hsplit _ _ hemit
  refine ⟨_, ⟨hmoves, hfits⟩, ?_⟩
  rw [(perform_position hperform).1, Bool.true_and]
  split_ifs
  · rw [← ofList_append, Pattern.append_of_split? hsplit]
  · exact String.empty_append

theorem scan_reads {limit : Nat} (hg : g.Lossless fits) (hr : r.Sound d L) (hf : fits (r.shape d))
    (h : r.scan g limit d = .ok r' d') : Reads fits d r d' r' L (String.ofList r.ahead) := by
  obtain ⟨⟨s, hs, hsplit⟩, hemp⟩ := scan_induction (P := fun d' r' => ∃ s,
    Reads fits d r d' r' L s ∧ s ++ String.ofList r'.ahead = String.ofList r.ahead)
    (fun ⟨s, hs, hsplit⟩ hstep => by
      obtain ⟨s', hs', hsplit'⟩ := step_reads hg hs.sound hs.fits_shape hstep
      exact ⟨s ++ s', hs.trans hs', by rw [String.append_assoc, hsplit', hsplit]⟩)
    ⟨"", ⟨hr.moves_of_pile rfl, hf⟩, String.empty_append⟩ h
  rw [hemp, String.ofList_nil, String.append_empty] at hsplit
  exact hsplit ▸ hs

omit [DecidableEq σ] in
theorem Sound.load (h : r.Sound d L) (text : String) : (r.load text).Sound d L :=
  ⟨h.toHeld.of_pile rfl, h.plain⟩

theorem read_reads (hg : g.Lossless fits) (hr : r.Sound d L) (hf : fits (r.shape d))
    (h : r.read g s d = .ok r' d') : Reads fits d r d' r' L s := by
  have hscan := scan_reads hg (hr.load s) hf h
  have hahead : String.ofList (r.load s).ahead = s := ofList_toList
  rw [hahead] at hscan
  exact ⟨hscan.toGoes.moves hr.plain hscan.built_eq, hscan.fits_shape⟩

def Bodiless (kinds : List Kind) (d : Document) : Prop :=
  ∀ x, d.kind x ∈ kinds → (d.node x).payload = .none

omit [DecidableEq σ] in
theorem Bodiless.of_steady {kinds : List Kind} (h : Bodiless kinds d) (hs : d.Steady d') :
    Bodiless kinds d' := by
  intro x hx
  rw [hs.payload_eq]
  by_cases hlt : x < d.size
  · rw [hs.kind_eq x hlt] at hx
    exact h x hx
  · rw [node_of_le (not_lt.mp hlt)]

/-- A way to treat nodes that builds what is written for them. -/
def Faithful (fits : Stacks σ → Prop) (through : List Kind) (levels : Nat)
    (visit : NodeId → Run σ → Edit (Run σ)) : Prop :=
  ∀ {d d' : Document} {r r' : Run σ} {id : NodeId} {L : List NodeId}, r.Sound d (id :: L) →
    fits (r.shape d) → Bodiless through d → Shallow d.refs levels id →
    visit id r d = .ok r' d' → Reads fits d r d' r' L (d.sourceOf id)

omit [DecidableEq σ] in
theorem Moves.shallow (h : Moves d r d' r' L s) (hx : x ∈ L)
    (hs : Shallow d.refs n x) : Shallow d'.refs n x :=
  hs.of_subset fun y hy => by
    rw [h.frame.refs_eq hx hy]
    exact List.Subset.refl _

omit [DecidableEq σ] in
theorem Moves.sourceOf_eq (h : Moves d r d' r' L s) (hr : r.Sound d L) (hx : x ∈ L) :
    d'.sourceOf x = d.sourceOf x :=
  h.frame.sourceOf_eq hr.grove hr.plain hx (hr.grove.lt_of_mem (mem_append_right _ hx)) .refl

variable {visit : NodeId → Run σ → Edit (Run σ)}

section

variable (hg : g.Lossless fits) (hv : Faithful fits through n visit)
include hg hv

theorem feed_reads (hr : r.Sound d (b.nodes ++ L)) (hf : fits (r.shape d)) (hb : Bodiless through d)
    (hs : ∀ c ∈ b.nodes, Shallow d.refs n c) (h : feed g visit b s r d = .ok r' d') :
    Reads fits d r d' r' L (s ++ d.text b) := by
  induction b generalizing s r d with
  | nil =>
    rw [Document.text, Document.writeBranch_nil, String.append_empty]
    exact read_reads hg hr hf h
  | cons f b ih =>
    cases f with
    | text t =>
      rw [Document.text, Document.branch_cons_text, ← String.append_assoc]
      exact ih hr hf hb hs h
    | node id =>
      rw [nodes_cons_node, cons_append] at hr
      rw [nodes_cons_node, forall_mem_cons] at hs
      obtain ⟨r1, d1, hread, h⟩ := bind_eq_ok.mp h
      obtain ⟨r2, d2, hvisit, h⟩ := bind_eq_ok.mp h
      have hm1 := read_reads hg hr hf hread
      have hb1 := hb.of_steady hm1.steady
      have hm2 := hv hm1.sound hm1.fits_shape hb1 (hm1.shallow mem_cons_self hs.1) hvisit
      have hmem : ∀ c ∈ Branch.nodes b, c ∈ Branch.nodes b ++ L :=
        fun c hc => mem_append_left _ hc
      have hm3 := ih hm2.sound hm2.fits_shape (hb1.of_steady hm2.steady)
        (fun c hc => hm2.shallow (hmem c hc)
          (hm1.shallow (mem_cons_of_mem _ (hmem c hc)) (hs.2 c hc))) h
      -- the rest of the branch is written as at the start
      have htext : d2.text b = d.text b := branch_congr fun c hc => by
        rw [hm2.sourceOf_eq (hm1.sound.sublist (sublist_cons_self _ _)) (hmem c hc),
          hm1.sourceOf_eq hr (mem_cons_of_mem _ (hmem c hc))]
      rw [htext, String.empty_append] at hm3
      rw [hm1.sourceOf_eq hr mem_cons_self] at hm2
      rw [Document.text, Document.branch_cons_node]
      have hL : L.Sublist (Branch.nodes b ++ L) := List.sublist_append_right _ _
      exact (hm1.sublist (hL.cons _)).trans ((hm2.sublist hL).trans hm3)

theorem feed_all_reads
    {bs : List Branch} (hr : r.Sound d (bs.flatMap Branch.nodes ++ L)) (hf : fits (r.shape d))
    (hb : Bodiless through d) (hs : ∀ c ∈ bs.flatMap Branch.nodes, Shallow d.refs n c)
    (h : bs.foldlM (fun r b => feed g visit b "" r) r d = .ok r' d') :
    Reads fits d r d' r' L (String.join (bs.map d.text)) := by
  induction bs generalizing r d with
  | nil =>
    obtain ⟨rfl, rfl⟩ := pure_eq_ok.mp h
    exact ⟨hr.moves_of_pile rfl, hf⟩
  | cons b bs ih =>
    rw [List.flatMap_cons, List.append_assoc] at hr
    rw [List.flatMap_cons, List.forall_mem_append] at hs
    rw [List.foldlM_cons] at h
    obtain ⟨r1, d1, hfeed, h⟩ := bind_eq_ok.mp h
    have hm1 := feed_reads hg hv hr hf hb hs.1 hfeed
    have hmem : ∀ c ∈ bs.flatMap Branch.nodes, c ∈ bs.flatMap Branch.nodes ++ L :=
      fun c hc => mem_append_left _ hc
    have hm2 := ih hm1.sound hm1.fits_shape (hb.of_steady hm1.steady)
      (fun c hc => hm1.shallow (hmem c hc) (hs.2 c hc)) h
    have htext : bs.map d1.text = bs.map d.text := map_congr_left fun b hb =>
      branch_congr fun c hc => hm1.sourceOf_eq (hr.sublist
        (List.sublist_append_right _ _)) (hmem c (mem_flatMap.mpr ⟨b, hb, hc⟩))
    rw [htext] at hm2
    rw [map_cons, join_cons, ← String.empty_append (s := d.text b)]
    exact (hm1.sublist (List.sublist_append_right _ _)).trans hm2

theorem feed_retells {b' : Branch}
    {place : Place} {d1 : Document} (hgrove : d.Grove (b.nodes ++ L)) (hp : d.Plain)
    (hb : Bodiless through d) (hs : ∀ c ∈ b.nodes, Shallow d.refs n c)
    (h : feed g visit b "" { place } d = .ok r' d1) (hfin : r'.finish g d1 = .ok b' d') :
    Document.Retells Manner.source d d' b b' L ∧ d.Steady d' := by
  have hr : ({ place } : Run σ).Sound d (b.nodes ++ L) :=
    ⟨⟨hgrove, fun t ht => absurd ht not_mem_nil⟩, hp⟩
  have hm := feed_reads hg hv hr hg.start hb hs h
  obtain ⟨hopened, -, rfl, rfl⟩ := finish_eq_ok.mp hfin
  refine ⟨⟨?_, hm.sound.plain, hm.frame, ?_⟩, hm.steady⟩
  · refine hm.sound.grove.perm (List.Perm.append_right _ ?_)
    rw [loose, pile, hopened, nodes_reverse]
    exact (reverse_perm _).symm
  · have hbuilt := hm.built_eq
    simp only [built, pile, Pile.text, hopened, map_nil, Pile.openedText, String.append_empty,
      List.reverse_nil, Document.text, Document.writeBranch_nil, String.empty_append] at hbuilt
    exact hbuilt

end

/-- The branches of a node have been taken out of it, for a run to read. They are written as before. -/
structure Clears (d : Document) (r : Run σ) (id : NodeId) (L : List NodeId) : Prop where
  sound : r.Sound (d.clear id) (d.kids id ++ L)
  frame : d.Frame (d.clear id) (d.kids id ++ (r.loose ++ L))
  steady : d.Steady (d.clear id)
  built_eq : r.built (d.clear id) = r.built d
  texts_eq : (d.branches id).map (d.clear id).text = (d.branches id).map d.text
  shallow : ∀ {n}, Shallow d.refs (n + 1) id → ∀ c ∈ d.kids id, Shallow (d.clear id).refs n c

omit [DecidableEq σ] in
theorem Sound.clear (hr : r.Sound d (id :: L)) : Clears d r id L := by
  obtain ⟨hgrove, hframe⟩ := hr.grove.clear
  have hsteady : d.Steady (d.clear id) := .modify rfl rfl fun _ => rfl
  have hloose : d.Frame (d.clear id) r.loose :=
    hframe.mono fun x hx => mem_append_right _ (mem_append_left _ hx)
  refine ⟨hr.of_frame hloose (hsteady.plain hr.plain) hgrove, hframe, hsteady, hr.built_eq hloose hsteady, ?_,
    fun hs c hc => (hs c (d.kids_sub id hc)).of_subset fun x hx => ?_⟩
  · refine map_congr_left fun b hb => branch_congr fun c hc => ?_
    have hc := mem_flatMap.mpr ⟨b, hb, hc⟩
    exact hframe.sourceOf_eq hr.grove hr.plain (mem_append_left _ hc)
      (hr.grove.lt_of_refs (d.kids_sub id hc)) .refl
  · rw [hframe.refs_eq (mem_append_left _ hc) hx]
    exact List.Subset.refl _

end Run

namespace Grammar

open Run (Bodiless Faithful Reads)

variable [DecidableEq σ] {g : Grammar σ} {fits : Stacks σ → Prop} {enter : List Kind}
  {visit : NodeId → Run σ → Edit (Run σ)}

theorem tokenizeBranches_retold (hg : g.Lossless fits) (hv : Faithful fits through n visit)
    (h : d.Grove (id :: L)) (hp : d.Plain) (hb : Bodiless through d)
    (hs : Shallow d.refs (n + 1) id) (hok : g.tokenizeBranches visit id d = .ok () d') :
    Document.Retold Manner.source d d' id L ∧ d.Steady d' := by
  rw [tokenizeBranches_eq] at hok
  have key := mapBranches_retold (I := fun d' => d.size ≤ d'.size ∧ d.Steady d')
    Manner.local_source Manner.textual_source h hp ⟨le_refl _, .refl d⟩ hs ?_ ?_ hok
  · exact ⟨key.2, key.1.2⟩
  · rintro d1 i b ⟨hle, hsteady⟩ hi
    refine ⟨?_, hsteady.trans hle (.setBranch hi)⟩
    rw [setBranch, size_modify]
    exact hle
  · rintro d1 b b' d2 L ⟨hle, hsteady⟩ hgrove hplain hdepth hf
    obtain ⟨r', d3, hfeed, hfin⟩ := bind_eq_ok.mp hf
    obtain ⟨hretells, hsteady2⟩ :=
      Run.feed_retells hg hv hgrove hplain (hb.of_steady hsteady) hdepth hfeed hfin
    exact ⟨⟨le_trans hle hretells.frame.size_le, hsteady.trans hle hsteady2⟩, hretells⟩

theorem sourceOf_eq_join (h : d.Grove L) (hp : d.Plain) (hlt : id < d.size)
    (hnone : (d.node id).payload = .none) (hdel : (d.kind id).delimiters = none) :
    d.sourceOf id = String.join ((d.branches id).map d.text) := by
  rw [h.sourceOf_eq hp hlt, write_of_none hnone, hdel]
  simp [writeBranches]

theorem visit_through (hg : g.Lossless fits) (hdel : ∀ k ∈ through, k.delimiters = none)
    (hv : Faithful fits through n visit) {r r' : Run σ} (hr : r.Sound d (id :: L))
    (hf : fits (r.shape d)) (hb : Bodiless through d) (hs : Shallow d.refs (n + 1) id)
    (hkind : d.kind id ∈ through)
    (h : (d.branches id).foldlM (fun r b => Run.feed g visit b "" r) r (d.clear id) = .ok r' d') :
    Reads fits d r d' r' L (d.sourceOf id) := by
  have hlt : id < d.size :=
    hr.grove.lt_of_mem (mem_append_right _ mem_cons_self)
  have hclear := hr.clear
  have hm := Run.feed_all_reads hg hv hclear.sound (by rw [hr.shape_eq hclear.steady]; exact hf)
    (hb.of_steady hclear.steady) (hclear.shallow hs) h
  rw [hclear.texts_eq, ← sourceOf_eq_join hr.grove hr.plain hlt (hb id hkind) (hdel _ hkind)] at hm
  have hframe : d.Frame (d.clear id) L :=
    hclear.frame.mono fun x hx => mem_append_right _ (mem_append_right _ hx)
  refine ⟨⟨⟨hm.held, hframe.trans hm.frame, hclear.steady.trans hclear.frame.size_le hm.steady⟩,
    hm.plain, ?_⟩, hm.fits_shape⟩
  rw [hm.built_eq, hclear.built_eq]

omit [DecidableEq σ] in
theorem append_retold {r : Run σ} (hr : r.Sound d (id :: L)) (hf : fits (r.shape d))
    (h : Document.Retold Manner.source d d' id (r.loose ++ L)) (hsteady : d.Steady d') :
    Reads fits d r d' (r.append (.node id)) L (d.sourceOf id) := by
  have hframe : d.Frame d' r.loose := h.frame.mono (subset_append_left _ _)
  have hm := (hr.of_frame hframe h.plain (h.grove.perm perm_middle.symm)).append_node
  refine ⟨⟨⟨hm.held, h.frame.mono (subset_append_right _ _), hsteady⟩, h.plain, ?_⟩, ?_⟩
  · rw [hm.built_eq, hr.built_eq hframe hsteady]
    exact congrArg _ h.render_eq
  · rw [Run.shape_append, hr.shape_eq hsteady]
    exact hf

theorem visit_faithful (hg : g.Lossless fits) (hdel : ∀ k ∈ through, k.delimiters = none)
    (levels : Nat) : Faithful fits through levels (g.visit through enter levels) := by
  induction levels with
  | zero => exact fun _ _ _ hs => hs.elim
  | succ n ih =>
    intro d d' r r' id L hr hf hb hs h
    have hgrove : d.Grove (id :: (r.loose ++ L)) := hr.grove.perm perm_middle
    rcases visit_succ_eq_ok h with ⟨hthrough, h⟩ | ⟨rfl, ⟨-, htok⟩ | rfl⟩
    · -- the node is dissolved
      have hseek : (r.seek (d.place id)).Sound d (id :: L) := ⟨hr.toHeld.of_pile rfl, hr.plain⟩
      have hm := visit_through hg hdel ih hseek hf hb hs (contains_iff_mem.mp hthrough) h
      exact ⟨hm.toGoes.moves hr.plain hm.built_eq, hm.fits_shape⟩
    · obtain ⟨hretold, hsteady⟩ := tokenizeBranches_retold hg ih hgrove hr.plain hb hs htok
      exact append_retold hr hf hretold hsteady
    · exact append_retold hr hf (.refl _ hgrove hr.plain) (.refl _)

theorem tokenize_retold (hg : g.Lossless fits) (hdel : ∀ k ∈ through, k.delimiters = none)
    (h : d.Grove (id :: L)) (hp : d.Plain) (hb : Bodiless through d)
    (hok : g.tokenize through enter id d = .ok () d') :
    Document.Retold Manner.source d d' id L ∧ d.Steady d' := by
  rw [tokenize_eq] at hok
  exact tokenizeBranches_retold hg (visit_faithful hg hdel d.size) h hp hb
    ((h.shallow h.lt_head).mono (Nat.le_succ _)) hok

end Grammar

end Stencil
