import Stencil.Proofs.Lexing.Keeping

/-!
# No token is lost

A run holds the nodes that it has made: each is open, or somewhere in what the run has built. So
**every node that is made when a node is split into tokens ends up below that node**, which is
`Grammar.reaches_of_tokenize`.
-/

namespace Stencil

open Document List

variable {d d' : Document} {L : List NodeId} {id x : NodeId} {σ : Type}

theorem Document.Frame.reaches_kids {y : NodeId}
    (h : d.Frame d' L) (hy : y ∈ L) (hr : Reaches d.kids y x) : Reaches d'.kids y x :=
  hr.congr fun z hz => by
    rw [kids, branches, h.node_eq y hy z (hz.mono d.kids_sub)]
    rfl

namespace Run

variable {d'' : Document} {r r' r'' : Run σ} {m : List Char}
  {p p' : Bool} {a : LexAction σ} {as : List (LexAction σ)}

def Within (d : Document) (r : Run σ) (x : NodeId) : Prop := ∃ y ∈ r.loose, Reaches d.kids y x

/-- The run holds what it held, and all nodes that have been made since. -/
def Gathers (d : Document) (r : Run σ) (d' : Document) (r' : Run σ) : Prop :=
  ∀ x, r.Within d x ∨ (d.size ≤ x ∧ x < d'.size) → r'.Within d' x

theorem Gathers.of_pile (hp : r'.pile = r.pile) : Gathers d r d r' := by
  rintro x (⟨y, hy, hr⟩ | ⟨hle, hlt⟩)
  · exact ⟨y, by rw [loose, hp]; exact hy, hr⟩
  · exact absurd hlt (not_lt.mpr hle)

theorem Gathers.trans (h : Gathers d r d' r') (h' : Gathers d' r' d'' r'') : Gathers d r d'' r'' := by
  rintro x (hx | ⟨hle, hlt⟩)
  · exact h' x (.inl (h x (.inl hx)))
  · by_cases hx : x < d'.size
    · exact h' x (.inl (h x (.inr ⟨hle, hx⟩)))
    · exact h' x (.inr ⟨not_lt.mp hx, hlt⟩)

theorem Gathers.of_subset (hk : ∀ z, d.kids z ⊆ d'.kids z)
    (hloose : ∀ y ∈ r.loose, ∃ z ∈ r'.loose, Reaches d'.kids z y)
    (hnew : ∀ x, d.size ≤ x → x < d'.size → r'.Within d' x) : Gathers d r d' r' := by
  rintro x (⟨y, hy, hr⟩ | ⟨hle, hlt⟩)
  · obtain ⟨z, hz, hzy⟩ := hloose y hy
    exact ⟨z, hz, hzy.trans (hr.mono hk)⟩
  · exact hnew x hle hlt

theorem loose_append_text (r : Run σ) (s : String) : (r.append (.text s)).loose = r.loose := by
  rw [loose, pile_append, Pile.nodes_add_text]
  rfl

theorem mem_loose_append_node : x ∈ (r.append (.node id)).loose ↔
    x = id ∨ x ∈ r.loose := by
  rw [loose, pile_append, (r.pile.nodes_add_node id).mem_iff, mem_cons]
  rfl

theorem Gathers.append_text (s : String) : Gathers d r d (r.append (.text s)) :=
  .of_subset (fun z => List.Subset.refl _)
    (fun y hy => ⟨y, by rwa [loose_append_text], .refl⟩)
    fun x hle hlt => absurd hlt (not_lt.mpr hle)

theorem gathers_start {kind : Kind} (h : r.start kind d = .ok r' d') : Gathers d r d' r' := by
  obtain ⟨rfl, rfl⟩ := start_eq_ok h
  have hloose : ({ r with opened := { node := d.size } :: r.opened } : Run σ).loose =
      d.size :: r.loose := by
    simp [loose, pile, Pile.nodes]
  refine .of_subset (fun z => ?_) (fun y hy => ⟨y, ?_, .refl⟩) fun x hle hlt => ⟨x, ?_, .refl⟩
  · by_cases hz : z = d.size
    · rw [hz, kids, branches, node_of_le (le_refl _)]
      exact nil_subset _
    · rw [kids, kids, branches, branches, node_create_ne hz]
      exact List.Subset.refl _
  · rw [hloose]
    exact mem_cons_of_mem _ hy
  · rw [size_create] at hlt
    rw [hloose]
    exact mem_cons.mpr (.inl (le_antisymm (Nat.lt_succ_iff.mp hlt) hle))

theorem Held.gathers_stop (hr : r.Held d L) (h : r.stop d = .ok r' d') : Gathers d r d' r' := by
  obtain ⟨t, ts, ho, rfl, rfl⟩ := stop_eq_ok h
  have hc := hr.closing ho
  have hlt : t.node < d.size := hc.grove.lt_head
  have hkids : (d.setBranch t.node 0 t.content.reverse).kids t.node =
      Branch.nodes t.content.reverse := by
    rw [kids, branches, setBranch, modify_self hlt, Node.setBranch_zero, hc.branches_eq]
    simp
  refine .of_subset (fun z => ?_) (fun y hy => ?_) fun x hle hx => ?_
  · by_cases hz : z = t.node
    · rw [hz, kids, branches, hc.branches_eq]
      exact nil_subset _
    · rw [kids, kids, branches, branches, setBranch, modify_ne hz]
      exact List.Subset.refl _
  · -- what the token holds is below it now
    have hloose : r.loose = t.node :: (t.content.nodes ++ { r with opened := ts }.loose) := by
      simp [loose, pile, Pile.nodes, ho]
    rw [hloose, mem_cons, mem_append] at hy
    rcases hy with rfl | hy | hy
    · exact ⟨t.node, mem_loose_append_node.mpr (.inl rfl), .refl⟩
    · exact ⟨t.node, mem_loose_append_node.mpr (.inl rfl), .child (by rw [hkids]; simpa using hy)⟩
    · exact ⟨y, mem_loose_append_node.mpr (.inr hy), .refl⟩
  · rw [setBranch, size_modify] at hx
    exact absurd hx (not_lt.mpr hle)

theorem gathers_kept (d0 : Document) (r0 : Run σ) (L : List NodeId) :
    Kept fun d (r : Run σ) => r.Held d L ∧ Gathers d0 r0 d r where
  of_pile h hp := ⟨h.1.of_pile hp, h.2.trans (.of_pile hp)⟩
  append_text h s := ⟨h.1.append_text s, h.2.trans (.append_text s)⟩
  start h hs := ⟨(h.1.start hs).held, h.2.trans (gathers_start hs)⟩
  stop h hs := ⟨(h.1.stop hs).held, h.2.trans (h.1.gathers_stop hs)⟩

section Reading

variable [DecidableEq σ] {g : Grammar σ} {s : String} {visit : NodeId → Run σ → Edit (Run σ)}

def GathersIn (visit : NodeId → Run σ → Edit (Run σ)) : Prop :=
  ∀ {d d' : Document} {r r' : Run σ} {id : NodeId} {L : List NodeId}, r.Held d (id :: L) →
    visit id r d = .ok r' d' → Gathers d r d' r'

section Feed

variable (hv : TakesIn visit) (hgather : GathersIn visit)
include hv hgather

theorem feeds_gathers : Feeds g visit fun L d' r' => r'.Held d' L ∧ Gathers d r d' r' where
  read h hread := (gathers_kept d r _).read h hread
  visit h hid := ⟨(hv h.1 hid).held, h.2.trans (hgather h.1 hid)⟩

theorem Held.gathers_feed {b : Branch} (hr : r.Held d (b.nodes ++ L))
    (h : Run.feed g visit b s r d = .ok r' d') : Gathers d r d' r' :=
  ((feeds_gathers hv hgather).feed ⟨hr, .of_pile rfl⟩ h).2

theorem Held.gathers_feed_all {bs : List Branch} (hr : r.Held d (bs.flatMap Branch.nodes ++ L))
    (h : bs.foldlM (fun r b => Run.feed g visit b "" r) r d = .ok r' d') : Gathers d r d' r' :=
  ((feeds_gathers hv hgather).feed_all ⟨hr, .of_pile rfl⟩ h).2

end Feed

end Reading

theorem Within.of_frame (h : r.Within d x) (hf : d.Frame d' r.loose) : r.Within d' x := by
  obtain ⟨y, hy, hr⟩ := h
  exact ⟨y, hy, hf.reaches_kids hy hr⟩

end Run

namespace Grammar

open Run (TakesIn GathersIn Gathers)

variable [DecidableEq σ] {g : Grammar σ} {through enter : List Kind} {visit : NodeId → Run σ → Edit (Run σ)}

theorem reaches_of_tokenizeBranches (hv : TakesIn visit) (hgather : GathersIn visit)
    (h : d.Grove (id :: L)) (hok : g.tokenizeBranches visit id d = .ok () d') (hle : d.size ≤ x)
    (hlt : x < d'.size) : Reaches d'.kids id x := by
  rw [tokenizeBranches_eq] at hok
  -- before branch `i`, all that has been made is in the branches in front of it
  have key := mapBranches_ind (P := fun i d1 => d1.Grove (id :: L) ∧
    (d1.branches id).length = (d.branches id).length ∧ ∀ x, d.size ≤ x → x < d1.size →
      ∃ j < i, ∃ c ∈ (d1.branch id j).nodes, Reaches d1.kids c x) hok
    ⟨h, rfl, fun x hle hlt => absurd hlt (not_lt.mpr hle)⟩ ?_
  · obtain ⟨-, -, hmade⟩ := key
    obtain ⟨j, -, c, hc, hr⟩ := hmade x hle hlt
    exact .head (mem_kids.mpr
      ⟨_, branch_mem (lt_of_mem_branch hc), hc⟩) hr
  · rintro i hi d1 b d2 ⟨hgrove, hlen, hmade⟩ hok
    have hi1 : i < (d1.branches id).length := hlen ▸ hi
    have hlt1 : id < d1.size := hgrove.lt_head
    obtain ⟨r, d3, hfeed, hfin⟩ := bind_eq_ok.mp hok
    obtain ⟨hg0, hf0⟩ := hgrove.takeBranch i
    have hr0 : ({ place := d.place id } : Run σ).Held (d1.setBranch id i [])
        ((d1.branch id i).nodes ++ (id :: L)) := ⟨hg0, fun t ht => absurd ht not_mem_nil⟩
    have hgoes := hr0.feed hv hfeed
    have hgathers := hr0.gathers_feed hv hgather hfeed
    obtain ⟨rfl, hg2⟩ := hgoes.held.finish hfin
    obtain ⟨hopened, -, hb, -⟩ := Run.finish_eq_ok.mp hfin
    have hnode2 : d2.node id = { d1.node id with branches := (d1.branches id).set i [] } := by
      rw [hgoes.frame.node_head, node_setBranch hlt1 hi1]
    have hi2 : i < (d2.branches id).length := by
      rw [branches, hnode2, length_set]
      exact hi1
    have hemp : d2.branch id i = [] := by
      rw [branch_getElem hi2]
      simp only [branches, hnode2, getElem_set_self]
    obtain ⟨hg3, hf3⟩ := hg2.putBranch hemp
    have hrest := hgrove.frame_rest hgoes.frame hg2
    have hlt2 : id < d2.size := hg2.lt_of_mem (mem_append_right _ mem_cons_self)
    have hnode3 : (d2.setBranch id i b).node id =
        { d1.node id with branches := (d1.branches id).set i b } := by
      rw [node_setBranch hlt2 hi2, branches, hnode2, set_set]
    refine ⟨hg3, ?_, fun x hle hlt => ?_⟩
    · rw [branches, hnode3, length_set]
      exact hlen
    · by_cases hx : x < d1.size
      · -- made before
        obtain ⟨j, hj, c, hc, hr⟩ := hmade x hle hx
        have hij : i ≠ j := ne_of_gt hj
        have hjlen : j < (d1.branches id).length := lt_of_mem_branch hc
        have hbranch : (d2.setBranch id i b).branch id j = d1.branch id j := by
          simp only [branch, Node.branch, hnode3, getD_eq_getElem?_getD, getElem?_set_ne hij]
          rfl
        refine ⟨j, Nat.lt_succ_of_lt hj, c, by rw [hbranch]; exact hc, hrest.reaches_kids ?_ hr⟩
        refine refs_of_branch (b := d1.branch id j) ?_ hc
        rw [branches, node_setBranch hlt1 hi1, branch_getElem hjlen]
        exact mem_iff_getElem.mpr ⟨j, by simpa using hjlen, by simp [hij]⟩
      · -- made now
        have hx2 : x < d2.size := by
          rw [setBranch, size_modify] at hlt
          exact hlt
        obtain ⟨c, hc, hr⟩ := hgathers x (.inr ⟨by
          rw [setBranch, size_modify]
          exact not_lt.mp hx, hx2⟩)
        have hcb : c ∈ b.nodes := by
          rw [hb, Branch.nodes_reverse, mem_reverse]
          simpa [Run.loose, Run.pile, Pile.nodes, hopened] using hc
        refine ⟨i, Nat.lt_succ_self i, c, ?_, hf3.reaches_kids (mem_append_left _ hcb) hr⟩
        have hbranch : (d2.setBranch id i b).branch id i = b := by
          rw [branch, hnode3, Node.branch, getD_eq_getElem _ _ (by simpa using hi1)]
          simp
        rw [hbranch]
        exact hcb

theorem visit_gathersIn (levels : Nat) : GathersIn (g.visit through enter levels) := by
  induction levels with
  | zero =>
    intro d d' r r' id L hr h
    obtain ⟨rfl, rfl⟩ := pure_eq_ok.mp h
    exact .of_pile rfl
  | succ n ih =>
    intro d d' r r' id L hr h
    have hv : TakesIn (g.visit through enter n) := visit_takesIn n
    rcases visit_succ_eq_ok h with ⟨-, h⟩ | ⟨rfl, ⟨-, htok⟩ | rfl⟩
    · -- the node is dissolved
      obtain ⟨hgrove, hframe⟩ := hr.grove.clear
      have hframeR : d.Frame (d.clear id) r.loose :=
        hframe.mono fun x hx => mem_append_right _ (mem_append_left _ hx)
      have hr1 : (r.seek (d.place id)).Held (d.clear id) (d.kids id ++ L) :=
        (hr.of_frame hframeR hgrove).of_pile rfl
      have hsize : (d.clear id).size = d.size := size_modify ..
      have hgathers := hr1.gathers_feed_all hv ih h
      rintro x (hx | hx)
      · exact hgathers x (.inl (hx.of_frame hframeR))
      · exact hgathers x (.inr (hsize.symm ▸ hx))
    · -- its branches have runs of their own
      have hgrove : d.Grove (id :: (r.loose ++ L)) := hr.grove.perm perm_middle
      obtain ⟨htended, -⟩ := tokenizeBranches_tended hv hgrove .refl htok
      rintro x (⟨y, hy, hyx⟩ | ⟨hle, hlt⟩)
      · exact ⟨y, Run.mem_loose_append_node.mpr (.inr hy),
          htended.frame.reaches_kids (mem_append_left _ hy) hyx⟩
      · exact ⟨id, Run.mem_loose_append_node.mpr (.inl rfl),
          reaches_of_tokenizeBranches hv ih hgrove htok hle hlt⟩
    · rintro x (⟨y, hy, hyx⟩ | ⟨hle, hlt⟩)
      · exact ⟨y, Run.mem_loose_append_node.mpr (.inr hy), hyx⟩
      · exact absurd hlt (not_lt.mpr hle)

theorem reaches_of_tokenize (h : d.Grove (id :: L)) (hok : g.tokenize through enter id d = .ok () d')
    (hle : d.size ≤ x) (hlt : x < d'.size) : Reaches d'.kids id x := by
  rw [tokenize_eq] at hok
  exact reaches_of_tokenizeBranches (visit_takesIn d.size) (visit_gathersIn d.size) h hok hle hlt

end Grammar

end Stencil
