import Stencil.Proofs.Blocks.Marking

/-!
# Nesting along a list

What has been read of a list, and what has been built, are kept side by side (`Taking`): the open blocks
are those that reading the list leaves open, and what has been built unfolds to what has been read. One
node more keeps this (`take_yields`), and so does a whole list (`nestBranch_yields`), if it holds for
the nodes below those that are kept (`NestsBelow`).
-/

namespace Stencil

open Document Branch List

variable {d e e' : Document} {c o q x y : NodeId} {nested : NodeId → Edit Unit}

namespace Document

variable {p : NodeId}

instance (d e : Document) (x : NodeId) : Decidable (d.Made e x) :=
  inferInstanceAs (Decidable (_ ∧ _))

/-- The lists of `e` that the branches of a node have become. A block has what was in its opening
marker in its opening. -/
def formerBranches (d e : Document) (x : NodeId) : List Branch :=
  if d.Made e x then [(e.node x).body.opening] else e.branches x

/-- Every list of a node unfolds to what it was, and to nothing else. -/
def Unfolded (d e : Document) (x : NodeId) : Prop :=
  List.Forall₂ (fun b b' => ∀ l, d.Unfolds e (Branch.items b') l ↔ l = Branch.items b)
    (d.branches x) (d.formerBranches e x)

theorem Unfolds.iff {b l l' : List Item} (h : d.Unfolds e b l) : d.Unfolds e b l' ↔ l' = l :=
  ⟨fun h' => h'.unique h, fun heq => heq ▸ h⟩

theorem not_made_of_payload_eq (h : (e.node x).payload = (d.node x).payload) : ¬ d.Made e x := by
  rintro ⟨hnone, hsome⟩
  have hbody : (e.node x).body? = (d.node x).body? := by rw [Node.body?, Node.body?, h]
  rw [hbody, hnone] at hsome
  cases hsome

theorem Unfolded.of_frame (h : d.Frame e [x]) : d.Unfolded e x := by
  have hself : e.node x = d.node x := h.node_head
  rw [Unfolded, formerBranches, if_neg (not_made_of_payload_eq (by rw [hself])), branches, branches,
    hself]
  refine forall₂_same.mpr fun b hb l => (Unfolds.self_of_node_eq fun c hc => ?_).iff
  exact h.node_eq x mem_cons_self c (Reaches.child (refs_of_branch hb (mem_items.mp hc)))

theorem Unfolded.congr (h : d.Unfolded e x) (hformer : d.formerBranches e' x = d.formerBranches e x)
    (hkids : ∀ c ∈ d.kids x, e'.node c = e.node c) : d.Unfolded e' x := by
  rw [Unfolded, hformer]
  refine forall₂_imp_mem h fun b hb b' _ hiff l => ?_
  have hold := (hiff _).mpr rfl
  refine (hold.congr fun c hc => hkids c ?_).iff
  exact mem_kids.mpr ⟨b, hb, mem_items.mp hc⟩

theorem formerBranches_congr (h : e'.node x = e.node x) :
    d.formerBranches e' x = d.formerBranches e x := by
  rw [formerBranches, formerBranches, branches, branches, h]
  exact if_congr (Unfolds.made_congr h) rfl rfl

end Document

namespace Nesting

variable {κ : Type} [DecidableEq κ] {n : Nesting κ} {e0 : Document} {p p' : Progress κ}
  {top id : NodeId} {levels : Nat} {key key0 key' : NodeId → Option κ} {S T : List NodeId}
  {opened : List (Awaiting κ)}

/-! ### Open blocks side by side -/

/-- A block that is being built and the same block in a list that is read. -/
structure Tracks (d e : Document) (a : Awaiting κ) (b : OpenBlock κ) : Prop where
  node_eq : a.node = b.node
  separators_eq : a.separators = b.separators
  closer_eq : a.closer = b.closer
  kind_eq : e.kind b.node = a.kind
  place_eq : e.place b.node = d.place b.node

omit [DecidableEq κ] in
theorem Tracks.congr {a : Awaiting κ} {b : OpenBlock κ} (h : Tracks d e a b)
    (hkind : e'.kind b.node = e.kind b.node) (hplace : e'.place b.node = e.place b.node) :
    Tracks d e' a b :=
  ⟨h.node_eq, h.separators_eq, h.closer_eq, hkind.trans h.kind_eq, hplace.trans h.place_eq⟩

omit [DecidableEq κ] in
theorem tracks_put {f : Fragment} (h : List.Forall₂ (Tracks d e) opened p.blocks) :
    List.Forall₂ (Tracks d e) opened (p.put f).blocks := by
  rw [Progress.put]
  split
  case h_1 b outer hb =>
    rw [hb] at h
    cases h with
    | cons h hs => exact .cons ⟨h.1, h.2, h.3, h.4, h.5⟩ hs
  case h_2 hb => exact h

theorem drop_succ_of_idxOf? {l : List κ} {k : κ} {i : Nat} (h : l.idxOf? k = some i) :
    l.drop (i + 1) = (l.dropWhile (· ≠ k)).tail := by
  induction l generalizing i with
  | nil => cases h
  | cons a l ih =>
    rw [idxOf?_cons] at h
    by_cases ha : a = k
    · simp only [ha, beq_self_eq_true, if_true, Option.some.injEq] at h
      subst h
      simp [ha]
    · simp only [beq_iff_eq, ha, if_false, Option.map_eq_some_iff] at h
      obtain ⟨j, hj, rfl⟩ := h
      simp [ha, ih hj]

theorem step_of_tracks {a : Awaiting κ} {b : OpenBlock κ} (h : Tracks d e a b) (k : κ) :
    (a.closer = k ∧ b.step k = .closes) ∨
    (a.closer ≠ k ∧ k ∈ a.separators ∧ ∃ next, b.step k = .separates next ∧
      next.node = b.node ∧ next.closer = b.closer ∧
        next.separators = (a.separators.dropWhile (· ≠ k)).tail) ∨
    (a.closer ≠ k ∧ k ∉ a.separators ∧ b.step k = .content) := by
  rw [h.closer_eq, h.separators_eq, OpenBlock.step]
  by_cases hc : b.closer = k
  · exact .inl ⟨hc, if_pos hc⟩
  · rw [if_neg hc]
    cases hi : b.separators.idxOf? k with
    | none =>
      refine .inr (.inr ⟨hc, fun hmem => ?_, rfl⟩)
      rw [idxOf?_eq_none_iff] at hi
      exact hi hmem
    | some i =>
      refine .inr (.inl ⟨hc, ?_, _, rfl, rfl, rfl, drop_succ_of_idxOf? hi⟩)
      by_contra hmem
      rw [idxOf?_eq_none_iff.mpr hmem] at hi
      cases hi

theorem take_plan (id : NodeId) (nested : NodeId → Edit Unit)
    (h : List.Forall₂ (Tracks d e) opened p.blocks) :
    ((n.key? e id).bind (openBehind n.table opened id) = none ∧
      n.take nested p id e = (do nested id; return p.put (.node id) : Edit (Progress κ)) e) ∨
    (∃ k rule, n.key? e id = some k ∧ n.table.get? k = some rule ∧
      n.take nested p id e = enter p id rule e ∧ openBehind n.table opened id k =
        some (⟨id, rule.kind, rule.separators, rule.closer⟩ :: opened)) ∨
    ∃ k a rest b outer, n.key? e id = some k ∧ opened = a :: rest ∧ p.blocks = b :: outer ∧
      ((n.take nested p id e = close p b outer id e ∧
        openBehind n.table opened id k = some rest) ∨
      ∃ next, b.step k = .separates next ∧ n.take nested p id e = separate p b next outer id e ∧
        next.closer = b.closer ∧
        openBehind n.table opened id k = some ({ a with separators := next.separators } :: rest)) := by
  rw [take, get_bind]
  cases hkey : n.key? e id with
  | none => exact .inl ⟨rfl, rfl⟩
  | some k =>
    rw [Option.bind_some]
    cases hrule : n.table.get? k with
    | some rule =>
      refine .inr (.inl ⟨k, rule, rfl, hrule, ?_, openBehind_of_some hrule⟩)
      simp only [hrule]
    | none =>
      generalize hblocks : p.blocks = blocks at h
      cases h with
      | nil =>
        refine .inl ⟨openBehind_nil hrule, ?_⟩
        simp only [hrule]
      | @cons a b rest outer hab _ =>
        rw [openBehind_cons hrule]
        rcases step_of_tracks hab k with ⟨hc, hstep⟩ | ⟨hc, hs, next, hstep, -, hcloser, hnext⟩ |
          ⟨hc, hs, hstep⟩
        · refine .inr (.inr ⟨k, a, rest, b, outer, rfl, rfl, rfl, .inl ⟨?_, ?_⟩⟩)
          · simp only [hrule, hstep]
          · rw [openBehind_cons hrule, if_pos hc]
        · refine .inr (.inr ⟨k, a, rest, b, outer, rfl, rfl, rfl, .inr ⟨next, hstep, ?_, hcloser, ?_⟩⟩)
          · simp only [hrule, hstep]
          · rw [openBehind_cons hrule, if_neg hc, if_pos hs, hnext]
        · refine .inl ⟨?_, ?_⟩
          · rw [if_neg hc, if_neg hs]
          · simp only [hrule, hstep]

/-! ### Keys -/

/-- Nodes that can be markers have one branch and no body. -/
def Tidy (n : Nesting κ) (d : Document) (top : NodeId) : Prop :=
  ∀ x, Reaches d.refs top x → d.hasKind x n.eligible →
    (d.node x).branches.length = 1 ∧ (d.node x).body? = none

/-- Keys as nesting sees them, which below some nodes are others than those given. -/
structure Rekeyed (n : Nesting κ) (d : Document) (key0 key : NodeId → Option κ) (tops : List NodeId) :
    Prop where
  seen : n.Seen d key
  key_eq : ∀ x, (∀ c ∈ tops, ¬ Reaches d.refs c x) → key x = key0 x

omit [DecidableEq κ] in
theorem Rekeyed.refl (h : n.Seen d key) (T : List NodeId) : n.Rekeyed d key key T :=
  ⟨h, fun _ _ => rfl⟩

omit [DecidableEq κ] in
theorem Rekeyed.mono (h : n.Rekeyed d key0 key S) (hsub : ∀ c ∈ S, ∃ t ∈ T, Reaches d.refs t c) :
    n.Rekeyed d key0 key T :=
  ⟨h.seen, fun x hx => h.key_eq x fun c hc hr => by
    obtain ⟨t, ht, htc⟩ := hsub c hc
    exact hx t ht (htc.trans hr)⟩

omit [DecidableEq κ] in
theorem Rekeyed.trans (h : n.Rekeyed d key0 key T) (h' : n.Rekeyed d key key' T) :
    n.Rekeyed d key0 key' T :=
  ⟨h'.seen, fun x hx => by rw [h'.key_eq x hx, h.key_eq x hx]⟩

omit [DecidableEq κ] in
theorem Rekeyed.update (h : n.Seen d key) (hframe : d.Frame e [id]) :
    n.Rekeyed d key (Function.update key id (n.key? e id)) [id] := by
  refine ⟨fun x => ?_, fun x hx => ?_⟩
  · by_cases hx : x = id
    · subst hx
      exact ⟨e, hframe, Function.update_self _ _ _⟩
    · rw [Function.update_of_ne hx]
      exact h x
  · rw [Function.update_of_ne]
    rintro rfl
    exact hx _ mem_cons_self .refl

/-! ### Along a list -/

/-- What has been read of a list, and what has been built of it in the document `e`. -/
structure Taking (n : Nesting κ) (d e0 : Document) (top : NodeId) (levels : Nat)
    (key : NodeId → Option κ) (done : Branch) (p : Progress κ) (e : Document) : Prop where
  within : d.Within e0 e done.nodes
  marks : Marks n.table d e p done.nodes
  tracks : List.Forall₂ (Tracks d e) (scan n.table key done.nodes).opened p.blocks
  closed : AllClosed n.table key
    ((scan n.table key done.nodes).kept.flatMap (lists d n.table key levels))
  gathered : n.Tidy d top → Gathered d e p done
  unfolded : n.Tidy d top → ∀ c ∈ done.nodes, ∀ q, Reaches d.refs c q → d.Unfolded e q

structure Nested (n : Nesting κ) (d : Document) (top : NodeId) (levels : Nat)
    (key : NodeId → Option κ) (id : NodeId) (e e' : Document) : Prop where
  within : d.Within e e' [id]
  payload_eq : (e'.node id).payload = (e.node id).payload
  marked : n.table.MarksAll d e'
  closed : AllClosed n.table key (lists d n.table key levels id)
  unfolded : n.Tidy d top → ∀ q, Reaches d.refs id q → d.Unfolded e' q

def NestsBelow (n : Nesting κ) (d : Document) (top : NodeId) (levels : Nat)
    (nested : NodeId → Edit Unit) : Prop :=
  ∀ {id : NodeId} {e : Document} {key0 : NodeId → Option κ}, Reaches d.refs top id →
    e.size = d.size → d.Frame e [id] → n.table.MarksAll d e → n.Seen d key0 →
    Yields (nested id) e
      (fun _ e' => ∃ key, n.Rekeyed d key0 key (d.kids id) ∧ Nested n d top levels key id e e')
      fun err e' => n.table.MarksAll d e' ∧ ∃ key, n.Rekeyed d key0 key (d.kids id) ∧
        Reports d n.table key (lists d n.table key levels id) err

section Siblings

variable {done : Branch}

/-- A node and those in front of it in the same list, none of them twice. -/
structure Siblings (d : Document) (top o : NodeId) (done : Branch) (id : NodeId) : Prop where
  unique : d.UniqueOwner top
  reached : Reaches d.refs top o
  before : ∀ c ∈ done.nodes, c ∈ d.refs o
  mem : id ∈ d.refs o
  nodup : done.nodes.Nodup
  fresh : id ∉ done.nodes

namespace Siblings

section

variable (h : Siblings d top o done id)
include h

theorem apart {z : NodeId} (hc : c ∈ done.nodes) (hz : Reaches d.refs id z) : ¬ Reaches d.refs c z :=
  h.unique.apart h.reached h.mem (h.before c hc) (fun heq => h.fresh (heq ▸ hc)) hz

theorem reaches : Reaches d.refs top id := h.reached.tail h.mem

theorem not_mem_refs (hc : c ∈ done.nodes)
    (hq : Reaches d.refs c q) (hy : y ∈ d.refs o) : y ∉ d.refs q := fun hyq => by
  have hcq := (h.reached.tail (h.before c hc)).trans hq
  obtain rfl := h.unique.owner_eq hcq h.reached hyq hy
  exact h.unique.not_reaches_mem h.reached (h.before c hc) hq

theorem frame (hw : d.Within e0 e done.nodes) (hf : d.Frame e0 [id]) : d.Frame e [id] :=
  hw.frame hf fun y hy z hz c hc => by
    rw [mem_singleton.mp hy] at hz
    exact h.apart hc hz

end

end Siblings

omit [DecidableEq κ] in
theorem Siblings.key_eq (hs : Siblings d top o done id) (hkeys : n.Rekeyed d key key' [id])
    (hc : c ∈ done.nodes) (hx : Reaches d.refs c x) : key' x = key x :=
  hkeys.key_eq x fun c' hc' hr => by
    rw [mem_singleton.mp hc'] at hr
    exact hs.apart hc hr hx

theorem Siblings.scan_eq (hs : Siblings d top o done id) (hkeys : n.Rekeyed d key key' [id]) :
    scan n.table key' done.nodes = scan n.table key done.nodes :=
  scan_congr fun _ hx => hs.key_eq hkeys hx .refl

theorem Taking.mem (h : Taking n d e0 top levels key done p e) {b : OpenBlock κ} (hb : b ∈ p.blocks) :
    b.node ∈ done.nodes :=
  (h.marks.blocks b hb).1

theorem Taking.rekey (hs : Siblings d top o done id) (h : Taking n d e0 top levels key done p e)
    (hkeys : n.Rekeyed d key key' [id]) : Taking n d e0 top levels key' done p e := by
  have hsame : ∀ c ∈ done.nodes, ∀ x, Reaches d.refs c x → key' x = key x := fun _ hc _ hx =>
    hs.key_eq hkeys hc hx
  have hscan := hs.scan_eq hkeys
  have hlists : (scan n.table key done.nodes).kept.flatMap (lists d n.table key' levels) =
      (scan n.table key done.nodes).kept.flatMap (lists d n.table key levels) :=
    flatMap_congr fun c hc => lists_congr fun c' hc' x hx =>
      hsame c (mem_kept hc) x ((Reaches.child (d.kids_sub c hc')).trans hx)
  refine ⟨h.within, h.marks, by rw [hscan]; exact h.tracks, ?_, h.gathered, h.unfolded⟩
  rw [hscan, hlists]
  refine h.closed.congr fun l hl x hx => ?_
  obtain ⟨c, hc, hl⟩ := mem_flatMap.mp hl
  obtain ⟨c', hc', hr⟩ := reaches_of_mem_lists hl hx
  exact hsame c (mem_kept hc) x ((Reaches.child (d.kids_sub c hc')).trans hr)

theorem scan_kept_snoc (h : (key id).bind (openBehind n.table (scan n.table key done.nodes).opened id) =
    none) : scan n.table key (Branch.nodes (done ++ [.node id])) =
      { scan n.table key done.nodes with kept := (scan n.table key done.nodes).kept ++ [id] } := by
  rw [nodes_append, nodes_cons_node, nodes_nil, scan_snoc, Scan.read, h]

theorem scan_marker_snoc {k : κ} (hk : key id = some k)
    (h : openBehind n.table (scan n.table key done.nodes).opened id k = some opened) :
    scan n.table key (Branch.nodes (done ++ [.node id])) = { scan n.table key done.nodes with opened } := by
  rw [nodes_append, nodes_cons_node, nodes_nil, scan_snoc, Scan.read, hk, Option.bind_some, h]

theorem forall_mem_nodes_snoc {P : NodeId → Prop} : (∀ c ∈ Branch.nodes (done ++ [.node id]), P c) ↔
    (∀ c ∈ done.nodes, P c) ∧ P id := by
  simp [or_imp, forall_and]

theorem Taking.keep (hs : Siblings d top o done id) (h : Taking n d e0 top levels key done p e)
    (hf : d.Frame e [id])
    (hread : (key id).bind (openBehind n.table (scan n.table key done.nodes).opened id) = none)
    (hn : Nested n d top levels key id e e') :
    Taking n d e0 top levels key (done ++ [.node id]) (p.put (.node id)) e' := by
  have hsame : ∀ c ∈ done.nodes, ∀ x, Reaches d.refs c x → e'.node x = e.node x := fun c hc x hx =>
    hn.within.node_eq x fun c' hc' hr => by
      rw [mem_singleton.mp hc'] at hr
      exact hs.apart hc hr hx
  have hscan := scan_kept_snoc hread
  refine ⟨?_, ?_, ?_, ?_, fun ht => ?_, fun ht => ?_⟩
  · rw [nodes_append]
    exact (h.within.mono fun c hc => ⟨c, mem_append_left _ hc, .refl⟩).trans
      (hn.within.mono fun c hc => ⟨c, mem_append_right _ hc, .refl⟩)
  · rw [nodes_append]
    exact ((h.marks.congr (fun c hc => hsame c hc c .refl) hn.marked).snoc id).put _
  · rw [hscan]
    refine tracks_put (forall₂_imp_mem h.tracks fun a _ b hb hab => ?_)
    have hnode := hsame _ (h.mem hb) _ .refl
    exact hab.congr (by rw [kind, hnode]; rfl) (by rw [place, hnode]; rfl)
  · rw [hscan, flatMap_append, flatMap_singleton, allClosed_append]
    exact ⟨h.closed, hn.closed⟩
  · refine (h.gathered ht).keep (fun x hx => hsame x hx x .refl) (fun _ => h.mem) ?_
    refine not_made_of_payload_eq (hn.payload_eq.trans ?_)
    rw [hf.node_head]
  · refine forall_mem_nodes_snoc.mpr ⟨fun c hc q hq => ?_, hn.unfolded ht⟩
    refine (h.unfolded ht c hc q hq).congr (formerBranches_congr (hsame c hc q hq))
      fun c' hc' => hsame c hc c' (hq.tail (d.kids_sub q hc'))

theorem Taking.lt_size (hs : Siblings d top o done id) (h : Taking n d e0 top levels key done p e)
    (hsize : e0.size = d.size) (hx : x ∈ d.refs o) : x < e.size := by
  rw [h.within.size_eq, hsize]
  exact hs.unique.lt_size (hs.reached.tail hx)

omit [DecidableEq κ] in
theorem hasKind_of_key? {k : κ} (hf : d.Frame e [id]) (hk : n.key? e id = some k) :
    d.hasKind id n.eligible := by
  have hmem := kind_eligible hk
  rw [kind, hf.node_head] at hmem
  exact contains_iff_mem.mpr hmem

theorem Siblings.frame_child (hs : Siblings d top o done id) (hf : d.Frame e [id]) {f : Node → Node}
    (hy : y ∈ d.refs o) (hc : c ∈ d.refs id) : d.Frame (e.modify y f) [c] := by
  refine ⟨by rw [size_modify]; exact hf.size_le, fun c' hc' z hz => ?_⟩
  rw [mem_singleton.mp hc'] at hz
  have hne : z ≠ y := by
    rintro rfl
    by_cases hid : z = id
    · exact hs.unique.not_reaches_mem hs.reaches hc (hid ▸ hz)
    · exact hs.unique.apart hs.reached hy hs.mem hid .refl ((Reaches.child hc).trans hz)
  rw [modify_ne hne]
  exact hf.node_eq id mem_cons_self z ((Reaches.child hc).trans hz)

theorem Taking.enter {k : κ} {rule : BlockRule κ} (hs : Siblings d top o done id)
    (h : Taking n d e0 top levels key done p e) (hsize : e0.size = d.size) (hf : d.Frame e [id])
    (hk : n.key? e id = some k) (hkey : key id = some k) (hrule : n.table.get? k = some rule)
    (hread : openBehind n.table (scan n.table key done.nodes).opened id k =
      some (⟨id, rule.kind, rule.separators, rule.closer⟩ :: (scan n.table key done.nodes).opened))
    (hok : Nesting.enter p id rule e = .ok p' e') :
    Taking n d e0 top levels key (done ++ [.node id]) p' e' := by
  obtain ⟨rfl, rfl⟩ := enter_eq_ok hok
  have hlt := h.lt_size hs hsize hs.mem
  have hnode : e.node id = d.node id := hf.node_head
  have hne : ∀ {c q}, c ∈ done.nodes → Reaches d.refs c q → q ≠ id := fun hc hq heq =>
    hs.apart hc .refl (heq ▸ hq)
  have hscan := scan_marker_snoc hkey hread
  refine ⟨?_, ?_, ?_, ?_, fun ht => ?_, fun ht => ?_⟩
  · rw [nodes_append]
    exact (h.within.mono fun c hc => ⟨c, mem_append_left _ hc, .refl⟩).trans
      (.modify (mem_append_right _ mem_cons_self))
  · rw [nodes_append]
    have hself : (e.modify id (Node.asBlock rule.kind)).node id = (d.node id).asBlock rule.kind := by
      rw [modify_self hlt, hnode]
    exact ((h.marks.congr (fun c hc => modify_ne (hne hc .refl)) (h.marks.marked.modify id fun _ => .inl
      (by rw [hnode]; rfl))).snoc id).push
      (fun b hb (heq : id = b.node) => hs.fresh (heq ▸ h.mem hb)) (mem_append_right _ mem_cons_self)
      ⟨k, rule, hrule, by rw [hself]; rfl, rfl, [], by rw [hself]; exact (append_nil _).symm, .nil, by simp⟩
  · rw [hscan]
    refine .cons ⟨rfl, rfl, rfl, ?_, ?_⟩ (forall₂_imp_mem h.tracks fun a _ b hb hab => ?_)
    · rw [kind, modify_self hlt]
      rfl
    · rw [place, modify_self hlt, place, ← hnode]
      rfl
    · have hsame := modify_ne (d := e) (f := Node.asBlock rule.kind)
        (hne (h.mem hb) .refl)
      exact hab.congr (by rw [kind, hsame]; rfl) (by rw [place, hsame]; rfl)
  · rw [hscan]
    exact h.closed
  · obtain ⟨hlen, hnone⟩ := ht id hs.reaches (hasKind_of_key? hf hk)
    exact (h.gathered ht).enter (fun _ => h.mem) hs.fresh hlt hnode hnone hlen
  · obtain ⟨hlen, hnone⟩ := ht id hs.reaches (hasKind_of_key? hf hk)
    obtain ⟨b, hb⟩ := length_eq_one_iff.mp hlen
    refine forall_mem_nodes_snoc.mpr ⟨fun c hc q hq => ?_, fun q hq => ?_⟩
    · refine (h.unfolded ht c hc q hq).congr
        (formerBranches_congr (modify_ne (hne hc hq))) fun c' hc' =>
          modify_ne (hne hc (hq.tail (d.kids_sub q hc')))
    · rcases hq.eq_or_child with rfl | ⟨c, hc, hcq⟩
      · have hself := (modify_self (f := Node.asBlock rule.kind) hlt).trans
          ((congrArg _ hnode).trans (node_asBlock rule.kind hnone hb))
        have hformer : d.formerBranches (e.modify id (Node.asBlock rule.kind)) id = [b] := by
          rw [formerBranches, if_pos ⟨hnone, by rw [hself]; rfl⟩, hself]
          rfl
        rw [Unfolded, hformer, branches, hb]
        refine .cons (fun l => (Unfolds.self_of_node_eq fun c hc => ?_).iff) .nil
        have hc : c ∈ d.refs id := refs_of_branch
          (by rw [branches, hb]; exact mem_cons_self) (mem_items.mp hc)
        exact (hs.frame_child hf hs.mem hc).node_head
      · have hframe := hs.frame_child hf (f := Node.asBlock rule.kind) hs.mem hc
        exact .of_frame ⟨hframe.size_le, fun x hx z hz => hframe.node_eq c mem_cons_self z
          (hcq.trans (mem_singleton.mp hx ▸ hz))⟩

/-- The innermost block takes in what is held for it and a marker. The rest is as before. -/
structure Absorbed (n : Nesting κ) (d e0 : Document) (top : NodeId) (done : Branch) (id : NodeId)
    (e' : Document) (opened : List (Awaiting κ)) (blocks : List (OpenBlock κ)) : Prop where
  within : d.Within e0 e' (Branch.nodes (done ++ [.node id]))
  frame : d.Frame e' [id]
  tracks : List.Forall₂ (Tracks d e') opened blocks
  unfolded : n.Tidy d top → ∀ c ∈ Branch.nodes (done ++ [.node id]), ∀ q, Reaches d.refs c q →
    d.Unfolded e' q

section

variable (hs : Siblings d top o done id) (h : Taking n d e0 top levels key done p e)
  (hsize : e0.size = d.size) (hf : d.Frame e [id])
include hs h hsize hf

theorem Taking.absorb {b : OpenBlock κ} {outer : List (OpenBlock κ)} {g : Body → Body}
    (hblocks : p.blocks = b :: outer) (hg : ∀ body, (g body).opening = body.opening)
    (he' : e' = e.modify b.node (Node.absorb b.branch b.content g)) :
    Absorbed n d e0 top done id e' (scan n.table key done.nodes).opened p.blocks := by
  subst he'
  have hb : b ∈ p.blocks := hblocks ▸ mem_cons_self
  have hmem : b.node ∈ d.refs o := hs.before _ (h.mem hb)
  have hframe : d.Frame (e.modify b.node (Node.absorb b.branch b.content g)) [id] := by
    refine ⟨by rw [size_modify]; exact hf.size_le, fun c hc z hz => ?_⟩
    rw [modify_ne, hf.node_eq c hc z hz]
    rintro rfl
    rw [mem_singleton.mp hc] at hz
    exact hs.apart (h.mem hb) hz .refl
  refine ⟨?_, hframe, forall₂_imp_mem h.tracks fun a _ b' _ hab => hab.congr ?_ ?_, fun ht =>
    forall_mem_nodes_snoc.mpr ⟨fun c hc q hq => ?_, fun q hq => ?_⟩⟩
  · rw [nodes_append]
    exact (h.within.mono fun c hc => ⟨c, mem_append_left _ hc, .refl⟩).trans
      (.modify (mem_append_left _ (h.mem hb)))
  · exact modify_of_eq Node.kind (Node.kind_fill _ _ _)
  · exact modify_of_eq Node.place (Node.place_fill _ _ _)
  · refine (h.unfolded ht c hc q hq).congr ?_ fun c' hc' => modify_ne ?_
    · by_cases hqb : q = b.node
      · -- the block keeps its opening
        subst hqb
        have hmade := ((h.gathered ht).blocks b hb).made
        have hself := modify_self (f := Node.absorb b.branch b.content g)
          (h.lt_size hs hsize hmem)
        rw [formerBranches, formerBranches, if_pos hmade, if_pos ⟨hmade.1, by rw [hself]; rfl⟩, hself]
        exact congrArg ([·]) (hg _)
      · exact formerBranches_congr (modify_ne hqb)
    · rintro rfl
      exact hs.not_mem_refs hc hq hmem (d.kids_sub q hc')
  · exact .of_frame ⟨hframe.size_le, fun x hx z hz => hframe.node_eq id mem_cons_self z
      (hq.trans (mem_singleton.mp hx ▸ hz))⟩

theorem Taking.close {k : κ} {a : Awaiting κ} {rest : List (Awaiting κ)} {b : OpenBlock κ}
    {outer : List (OpenBlock κ)}
    (hkey : key id = some k) (hopened : (scan n.table key done.nodes).opened = a :: rest)
    (hblocks : p.blocks = b :: outer)
    (hread : openBehind n.table (scan n.table key done.nodes).opened id k = some rest)
    (hok : Nesting.close p b outer id e = .ok p' e') :
    Taking n d e0 top levels key (done ++ [.node id]) p' e' := by
  obtain ⟨he', hp'⟩ := close_eq_ok hok
  obtain ⟨hwithin, hframe, htracks, hunfolded⟩ := h.absorb (g := ({ · with closing := some id })) hs
    hsize hf hblocks (fun _ => rfl) he'
  have hscan := scan_marker_snoc hkey hread
  rw [hopened, hblocks] at htracks
  cases htracks with
  | cons _ htracks =>
  have hb : b ∈ p.blocks := hblocks ▸ mem_cons_self
  have hlt := h.lt_size hs hsize (hs.before _ (h.mem hb))
  refine ⟨hwithin, ?_, ?_, by rw [hscan]; exact h.closed, fun ht => ?_, hunfolded⟩
  · rw [hp', nodes_append]
    refine Marks.put (.snoc ?_ id) _
    rw [he']
    refine (h.marks.absorb hblocks rfl ?_).pop rfl
    obtain ⟨k, rule, hrule, hkind, hfits⟩ := (h.marks.blocks b hb).2
    rw [modify_self hlt]
    exact ⟨k, rule, hrule, hkind.trans (Node.kind_fill _ _ _).symm, hfits⟩
  · rw [hscan, hp']
    exact tracks_put htracks
  · exact (h.gathered ht).close hblocks hs.nodup hlt hs.fresh
      hf.node_head hok

theorem Taking.separate {k : κ} {a : Awaiting κ} {rest : List (Awaiting κ)} {b next : OpenBlock κ}
    {outer : List (OpenBlock κ)}
    (hkey : key id = some k) (hopened : (scan n.table key done.nodes).opened = a :: rest)
    (hblocks : p.blocks = b :: outer) (hstep : b.step k = .separates next)
    (hcloser : next.closer = b.closer)
    (hread : openBehind n.table (scan n.table key done.nodes).opened id k =
      some ({ a with separators := next.separators } :: rest))
    (hok : Nesting.separate p b next outer id e = .ok p' e') :
    Taking n d e0 top levels key (done ++ [.node id]) p' e' := by
  obtain ⟨he', hp'⟩ := separate_eq_ok hok
  obtain ⟨hnode, hbranch, -⟩ := step_separates hstep
  obtain ⟨hwithin, hframe, htracks, hunfolded⟩ := h.absorb (g := (·.mark next.branch id)) hs hsize hf
    hblocks (fun _ => rfl) he'
  have hscan := scan_marker_snoc hkey hread
  have hb : b ∈ p.blocks := hblocks ▸ mem_cons_self
  have hlt := h.lt_size hs hsize (hs.before _ (h.mem hb))
  rw [hopened, hblocks] at htracks
  cases htracks with
  | cons hab htracks =>
  refine ⟨hwithin, ?_, ?_, by rw [hscan]; exact h.closed, fun ht => ?_, hunfolded⟩
  · rw [hp', nodes_append]
    refine .snoc ?_ id
    rw [he']
    refine h.marks.absorb hblocks hnode ?_
    rw [modify_self hlt]
    exact show n.table.Fits _ _ next from
      (h.marks.blocks b hb).2.separate hstep (Node.kind_fill _ _ _) hbranch rfl
  · rw [hscan, hp']
    refine .cons ⟨hab.node_eq.trans hnode.symm, rfl, hab.closer_eq.trans hcloser.symm, ?_, ?_⟩ htracks
    · exact hnode ▸ hab.kind_eq
    · exact hnode ▸ hab.place_eq
  · exact (h.gathered ht).separate hblocks hs.nodup hlt hs.fresh
      hf.node_head hnode hbranch hok

end

theorem Taking.put_text (h : Taking n d e0 top levels key done p e) (s : String) :
    Taking n d e0 top levels key (done ++ [.text s]) (p.put (.text s)) e := by
  have hnodes : Branch.nodes (done ++ [.text s]) = done.nodes := by simp
  refine ⟨?_, ?_, ?_, ?_, fun ht => (h.gathered ht).put_text s, ?_⟩
  · rw [hnodes]
    exact h.within
  · rw [hnodes]
    exact h.marks.put _
  · rw [hnodes]
    exact tracks_put h.tracks
  · rw [hnodes]
    exact h.closed
  · rw [hnodes]
    exact h.unfolded

theorem take_yields (hn : NestsBelow n d top levels nested)
    (hs : Siblings d top o done id) (h : Taking n d e0 top levels key done p e)
    (hseen : n.Seen d key) (hsize : e0.size = d.size) (hf0 : d.Frame e0 [id]) :
    Yields (n.take nested p id) e
      (fun p' e' => ∃ key', n.Rekeyed d key key' [id] ∧
        Taking n d e0 top levels key' (done ++ [.node id]) p' e')
      fun err e' => n.table.MarksAll d e' ∧ ∃ key', n.Rekeyed d key key' [id] ∧ Reports d n.table key'
        ((scan n.table key' (Branch.nodes (done ++ [.node id]))).kept.flatMap
          (lists d n.table key' levels)) err := by
  have hf : d.Frame e [id] := hs.frame h.within hf0
  have hkeys := Rekeyed.update hseen hf
  have hkey : Function.update key id (n.key? e id) id = n.key? e id := Function.update_self _ _ _
  generalize Function.update key id (n.key? e id) = key1 at hkeys hkey
  have h1 := h.rekey hs hkeys
  rcases take_plan id nested h1.tracks with ⟨hread, htake⟩ |
    ⟨k, rule, hk, hrule, htake, hread⟩ |
    ⟨k, a, rest, b, outer, hk, hopened, hblocks, ⟨htake, hread⟩ | ⟨next, hstep, htake, hcl, hread⟩⟩
  · -- what the nested call does to keys is below `id`
    have hkeys2 : ∀ {key2}, n.Rekeyed d key1 key2 (d.kids id) → n.Rekeyed d key1 key2 [id] ∧
        (key2 id).bind (openBehind n.table (scan n.table key2 done.nodes).opened id) = none := by
      intro key2 hk2
      have hk2' : n.Rekeyed d key1 key2 [id] := hk2.mono fun c hc =>
        ⟨id, mem_cons_self, Reaches.child (d.kids_sub id hc)⟩
      refine ⟨hk2', ?_⟩
      rw [hs.scan_eq hk2', hk2.key_eq id fun c hc => hs.unique.not_reaches_mem hs.reaches
        (d.kids_sub id hc), hkey]
      exact hread
    refine .congr htake (Yields.bind ((hn hs.reaches (h.within.size_eq.trans hsize) hf h.marks.marked
      hkeys.seen).mono (fun _ _ hQ => hQ) fun err e' hE => ?_) fun _ e' hQ => .pure ?_)
    · obtain ⟨hmarked, key2, hk2, hreports⟩ := hE
      obtain ⟨hk2', hread2⟩ := hkeys2 hk2
      refine ⟨hmarked, key2, hkeys.trans hk2', ?_⟩
      rw [scan_kept_snoc hread2, flatMap_append, flatMap_singleton]
      simpa using hreports.append (h1.rekey hs hk2').closed []
    · obtain ⟨key2, hk2, hnested⟩ := hQ
      obtain ⟨hk2', hread2⟩ := hkeys2 hk2
      exact ⟨key2, hkeys.trans hk2', (h1.rekey hs hk2').keep hs hf hread2 hnested⟩
  · refine .congr htake ⟨fun p' e' hok => ⟨key1, hkeys, ?_⟩, fun err e' he => by cases he⟩
    exact h1.enter hs hsize hf hk (hkey.trans hk) hrule hread hok
  · refine .congr htake ⟨fun p' e' hok => ⟨key1, hkeys, ?_⟩, fun err e' he => by cases he⟩
    exact h1.close hs hsize hf (hkey.trans hk) hopened hblocks hread hok
  · refine .congr htake ⟨fun p' e' hok => ⟨key1, hkeys, ?_⟩, fun err e' he => by cases he⟩
    exact h1.separate hs hsize hf (hkey.trans hk) hopened hblocks hstep hcl hread hok

theorem foldlM_yields {b rest : Branch}
    (hn : NestsBelow n d top levels nested) (hd : d.UniqueOwner top) (ho : Reaches d.refs top o)
    (hb : b ∈ d.branches o) (hsize : e0.size = d.size) (hf : d.Frame e0 b.nodes)
    (hsplit : done ++ rest = b) (hkeys : n.Rekeyed d key0 key done.nodes)
    (h : Taking n d e0 top levels key done p e) :
    Yields (rest.foldlM (n.takeFragment nested) p) e
      (fun p' e' => ∃ key', n.Rekeyed d key0 key' b.nodes ∧ Taking n d e0 top levels key' b p' e')
      fun err e' => n.table.MarksAll d e' ∧ ∃ key', n.Rekeyed d key0 key' b.nodes ∧
        Reports d n.table key' (listsIn d n.table key' levels b.nodes) err := by
  induction rest generalizing done p e key with
  | nil =>
    rw [append_nil] at hsplit
    subst hsplit
    exact .pure ⟨key, hkeys, h⟩
  | cons f rest ih =>
    rw [foldlM_cons]
    have hsplit' : (done ++ [f]) ++ rest = b := by rw [← hsplit, append_assoc]; rfl
    cases f with
    | text s => exact ih hsplit' (by simpa using hkeys) (h.put_text s)
    | node id =>
      have hnodes : b.nodes = done.nodes ++ id :: Branch.nodes rest := by rw [← hsplit]; simp
      have hnodup : b.nodes.Nodup := (nodup_flatMap.mp (hd.kids_nodup ho)).1 b hb
      rw [hnodes] at hnodup
      have hrefs : ∀ {c}, c ∈ b.nodes → c ∈ d.refs o := fun hc => refs_of_branch hb hc
      have hs : Siblings d top o done id := {
        unique := hd
        reached := ho
        before c hc := hrefs (by rw [hnodes]; exact mem_append_left _ hc)
        mem := hrefs (by rw [hnodes]; exact mem_append_right _ mem_cons_self)
        nodup := (nodup_append.mp hnodup).1
        fresh hid := (nodup_append.mp hnodup).2.2 id hid id mem_cons_self rfl }
      have hsub : ∀ {key'}, n.Rekeyed d key key' [id] →
          n.Rekeyed d key0 key' (Branch.nodes (done ++ [.node id])) := fun hk => by
        rw [nodes_append]
        exact (hkeys.mono fun c hc => ⟨c, mem_append_left _ hc, .refl⟩).trans
          (hk.mono fun c hc => ⟨c, mem_append_right _ hc, .refl⟩)
      refine Yields.bind ((take_yields hn hs h hkeys.seen hsize (hf.mono (by simp [hnodes]))).mono
        (fun _ _ hQ => hQ) fun err e' hE => ?_) fun p' e' hQ => ?_
      · obtain ⟨hmarked, key', hk, hreports⟩ := hE
        refine ⟨hmarked, key', (hsub hk).mono fun c hc => ⟨c, ?_, .refl⟩, ?_⟩
        · rw [← hsplit', nodes_append]
          exact mem_append_left _ hc
        · -- the lists so far are the first of all lists in this one
          obtain ⟨kept, hkept⟩ := kept_append n.table key' (Branch.nodes (done ++ [.node id]))
            (Branch.nodes rest)
          have hb' : b.nodes = Branch.nodes (done ++ [.node id]) ++ Branch.nodes rest := by
            rw [← hsplit', nodes_append]
          rw [listsIn, hb', hkept, flatMap_append, append_assoc]
          exact hreports.append (fun l hl => absurd hl not_mem_nil) _
      · obtain ⟨key', hk, htaking⟩ := hQ
        exact ih hsplit' (hsub hk) htaking

end Siblings

structure NestedList (n : Nesting κ) (d e0 : Document) (top : NodeId) (levels : Nat)
    (key : NodeId → Option κ) (b b' : Branch) (e : Document) : Prop where
  within : d.Within e0 e b.nodes
  marked : n.table.MarksAll d e
  closed : AllClosed n.table key (listsIn d n.table key levels b.nodes)
  unfolds : n.Tidy d top → d.Unfolds e b'.items b.items
  unfolded : n.Tidy d top → ∀ c ∈ b.nodes, ∀ q, Reaches d.refs c q → d.Unfolded e q

omit [DecidableEq κ] in
theorem getLast?_of_tracks {blocks : List (OpenBlock κ)} (h : List.Forall₂ (Tracks d e) opened blocks) :
    (opened = [] ∧ blocks = []) ∨ ∃ a b, opened.getLast? = some a ∧ blocks.getLast? = some b ∧
      Tracks d e a b := by
  have hrev := forall₂_reverse_iff.mpr h
  rw [← head?_reverse, ← head?_reverse]
  cases ho : opened.reverse with
  | nil =>
    rw [ho, forall₂_nil_left_iff] at hrev
    exact .inl ⟨by simpa using ho, by simpa using hrev⟩
  | cons a as =>
    rw [ho] at hrev
    cases hbr : blocks.reverse with
    | nil => rw [hbr] at hrev; cases hrev
    | cons b bs =>
      rw [hbr] at hrev
      cases hrev with
      | cons hab _ => exact .inr ⟨a, b, rfl, rfl, hab⟩

theorem nestBranch_yields {b : Branch}
    (hn : NestsBelow n d top levels nested) (hd : d.UniqueOwner top) (ho : Reaches d.refs top o)
    (hb : b ∈ d.branches o) (hsize : e0.size = d.size) (hf : d.Frame e0 b.nodes)
    (hmarked : n.table.MarksAll d e0) (hseen : n.Seen d key0) :
    Yields (n.nestBranch nested b) e0
      (fun b' e => ∃ key, n.Rekeyed d key0 key b.nodes ∧ NestedList n d e0 top levels key b b' e)
      fun err e => n.table.MarksAll d e ∧ ∃ key, n.Rekeyed d key0 key b.nodes ∧
        Reports d n.table key (listsIn d n.table key levels b.nodes) err := by
  have hstart : Taking n d e0 top levels key0 [] ({} : Progress κ) e0 :=
    ⟨.refl _ _ _, ⟨.nil, by simp, hmarked⟩, .nil, fun l hl => absurd hl not_mem_nil,
      fun _ => ⟨.nil, by simp⟩, by simp⟩
  refine Yields.bind (foldlM_yields hn hd ho hb hsize hf (nil_append b) (.refl hseen _) hstart)
    fun p e hQ => ?_
  obtain ⟨key, hkeys, h⟩ := hQ
  rcases getLast?_of_tracks h.tracks with ⟨hopened, hblocks⟩ | ⟨a, outer, ha, houter, hab⟩
  · have hlast : p.blocks.getLast? = none := by rw [hblocks]; rfl
    simp only [hlast]
    refine .pure ⟨key, hkeys, h.within, h.marks.marked, ?_, fun ht => ?_, h.unfolded⟩
    · refine allClosed_append.mpr ⟨h.closed, fun l hl => ?_⟩
      rw [mem_singleton.mp hl]
      exact hopened
    · simpa [Progress.flat, hblocks] using (h.gathered ht).unfolds
  · simp only [houter]
    refine .bind_ok rfl (.throw ⟨h.marks.marked, key, hkeys, _, b.nodes, [], a, rfl, h.closed, ha, ?_⟩)
    rw [hab.place_eq, hab.kind_eq, hab.node_eq]

end Nesting

end Stencil
