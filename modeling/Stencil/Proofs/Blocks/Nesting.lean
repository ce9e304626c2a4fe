import Stencil.Proofs.Blocks.Filling
import Stencil.Proofs.Doc.Pile

/-!
# Nesting leaves nothing out

What has been built of a branch is a pile: the open blocks, each written as far as it goes, and what is
in the branch they fill. Taking in one node adds what is written for the node, whether it opens,
separates or closes a block or is kept (`take_moves`). So a branch is nested into one that is written as
before (`nestBranch_retells`), and so is a node with all that is below it (`nest_retold`).
-/

namespace Stencil

open Document List Node

variable {d : Document} {x : NodeId} {kinds marks : List Kind} {nested : NodeId → Edit Unit}

/-- Only nodes of the given kinds have a body or several branches, and the markers between branches
are of the kinds in `marks`. -/
structure Document.Bodied (kinds marks : List Kind) (d : Document) : Prop where
  plain : ∀ x, d.kind x ∉ kinds → (d.node x).payload = .none ∧ (d.node x).branches.length = 1
  marker : ∀ x, ∀ m ∈ (d.node x).body.markers, d.kind m.2 ∈ marks

namespace Document

theorem mem_refs_of_marker {m : Nat × NodeId} (h : m ∈ (d.node x).body.markers) : m.2 ∈ d.refs x :=
  mem_references.mpr (.inr (.inl (mem_map_of_mem h)))

theorem Bodied.modify {f : Node → Node} (h : d.Bodied kinds marks) (hlt : x < d.size)
    (hkind : (f (d.node x)).kind = d.kind x ∨ ∀ y, x ∉ d.refs y)
    (hplain : (f (d.node x)).kind ∉ kinds →
      (f (d.node x)).payload = .none ∧ (f (d.node x)).branches.length = 1)
    (hmark : ∀ m ∈ (f (d.node x)).body.markers, m ∈ (d.node x).body.markers ∨
      m.2 ≠ x ∧ d.kind m.2 ∈ marks) : (d.modify x f).Bodied kinds marks := by
  have hold : ∀ y, ∀ m ∈ (d.node y).body.markers, (d.modify x f).kind m.2 ∈ marks := fun y m hm => by
    have hmarks := h.marker y m hm
    by_cases hmx : m.2 = x
    · rcases hkind with hkind | hloose
      · rwa [kind, hmx, modify_self hlt, hkind, ← hmx]
      · exact absurd (mem_refs_of_marker hm) (hmx ▸ hloose y)
    · rwa [kind, modify_ne hmx]
  refine ⟨fun y hy => ?_, fun y m hm => ?_⟩
  · by_cases hyx : y = x
    · subst hyx
      rw [kind, modify_self hlt] at hy
      rw [modify_self hlt]
      exact hplain hy
    · rw [kind, modify_ne hyx] at hy
      rw [modify_ne hyx]
      exact h.plain y hy
  · by_cases hyx : y = x
    · subst hyx
      rw [modify_self hlt] at hm
      rcases hmark m hm with hm | ⟨hne, hm⟩
      · exact hold y m hm
      · rwa [kind, modify_ne hne]
    · rw [modify_ne hyx] at hm
      exact hold y m hm

theorem Bodied.setBranch {i : Nat} {b : Branch} (h : d.Bodied kinds marks)
    (hi : i < (d.branches x).length) : (d.setBranch x i b).Bodied kinds marks := by
  by_cases hlt : x < d.size
  · refine h.modify hlt (.inl rfl) (fun hk => ⟨(h.plain x hk).1, ?_⟩) fun m hm => .inl hm
    have hlen := (h.plain x hk).2
    rw [branches] at hi
    rw [length_setBranch]
    omega
  · rw [Document.setBranch, modify_of_le (not_lt.mp hlt)]
    exact h

end Document

namespace Nesting

variable {κ : Type} {m : Manner} {full : Prop}
  {d' : Document} {p p' : Progress κ} {L : List NodeId} {s : String} {id : NodeId}

/-! ### What has been built -/

/-- The open blocks and what has been built outside of them. -/
def Progress.pile (p : Progress κ) : Pile :=
  { opened := p.blocks.map fun b => (b.node, b.content), out := p.out }

def Progress.loose (p : Progress κ) : List NodeId := p.pile.nodes

def Progress.text (m : Manner) (d : Document) (p : Progress κ) : String :=
  p.pile.text (d.render m) (d.render m)

/-- The node of an open block: it has a body that is not closed yet, and the branch that is being
filled is its last and still empty. -/
structure Open (kinds : List Kind) (full : Prop) (d : Document) (b : OpenBlock κ) : Prop where
  kind : d.kind b.node ∈ kinds
  body : ∃ body, (d.node b.node).payload = .body body ∧ body.closing = none ∧
    body.span ≤ b.branch + 1 ∧ (full ∨ body.markers = [])
  length_le : (d.node b.node).branches.length ≤ b.branch + 1
  empty : (d.node b.node).branch b.branch = []
  separators : full ∨ b.separators = []

/-- What has been built and the document it belongs to, where nodes in `L` are held by others. -/
structure Sound (kinds marks : List Kind) (full : Prop) (d : Document) (p : Progress κ)
    (L : List NodeId) : Prop where
  grove : d.Grove (p.loose ++ L)
  plain : d.Plain
  bodied : d.Bodied kinds marks
  blocks : ∀ b ∈ p.blocks, Open kinds full d b

/-- Something written as `s` has been taken in. -/
structure Moves (m : Manner) (kinds marks : List Kind) (full : Prop) (d : Document)
    (p : Progress κ) (d' : Document) (p' : Progress κ) (L : List NodeId) (s : String) : Prop where
  sound : Sound kinds marks full d' p' L
  text_eq : p'.text m d' = p.text m d ++ s
  frame : d.Frame d' L

theorem pile_put (p : Progress κ) (f : Fragment) : (p.put f).pile = p.pile.add f := by
  rw [Progress.put]
  split
  case h_1 b outer h => simp [Progress.pile, Pile.add, h]
  case h_2 h => simp [Progress.pile, Pile.add, h]

theorem blocks_put {f : Fragment} (h : ∀ b ∈ p.blocks, Open kinds full d b) :
    ∀ b ∈ (p.put f).blocks, Open kinds full d b := by
  rw [Progress.put]
  split
  case h_1 b outer hb =>
    rw [hb, forall_mem_cons] at h
    refine forall_mem_cons.mpr ⟨⟨h.1.kind, h.1.body, h.1.length_le, h.1.empty,
      h.1.separators⟩, h.2⟩
  case h_2 hb => exact h

theorem Sound.put_text (h : Sound kinds marks full d p L) (s : String) :
    Moves m kinds marks full d p d (p.put (.text s)) L s where
  sound := by
    refine ⟨?_, h.plain, h.bodied, blocks_put h.blocks⟩
    rw [Progress.loose, pile_put, Pile.nodes_add_text]
    exact h.grove
  text_eq := by simp [Progress.text, pile_put, Pile.text_add]
  frame := .refl _ _

theorem Sound.put_node (h : Sound kinds marks full d p (id :: L)) :
    Moves m kinds marks full d p d (p.put (.node id)) L (d.render m id) where
  sound := by
    refine ⟨h.grove.perm ?_, h.plain, h.bodied, blocks_put h.blocks⟩
    rw [Progress.loose, Progress.loose, pile_put]
    exact perm_middle.trans ((p.pile.nodes_add_node id).symm.append_right L)
  text_eq := by simp [Progress.text, pile_put, Pile.text_add]
  frame := .refl _ _

theorem Sound.lt_size (h : Sound kinds marks full d p L) (hx : x ∈ p.loose) : x < d.size :=
  h.grove.lt_of_mem (mem_append_left _ hx)

theorem Sound.text_eq (h : Sound kinds marks full d p L) (hm : m.Local) (hf : d.Frame d' p.loose) :
    p.text m d' = p.text m d := by
  have hsame : ∀ x ∈ p.loose, d'.render m x = d.render m x := fun x hx =>
    hf.render_eq hm h.grove h.plain hx (h.lt_size hx) .refl
  exact Pile.text_congr (fun x hx => hsame x (Pile.mem_nodes_of_opened hx)) hsame

theorem mem_loose_of_block {b : OpenBlock κ} (h : b ∈ p.blocks) : b.node ∈ p.loose :=
  Pile.mem_nodes_of_opened (mem_map.mpr ⟨_, mem_map.mpr ⟨b, h, rfl⟩, rfl⟩)

theorem Sound.ne_of_mem_blocks {b : OpenBlock κ} (h : Sound kinds marks full d p (id :: L))
    (hb : b ∈ p.blocks) : id ≠ b.node := fun heq => by
  have hnodup := (h.grove.perm perm_middle).nodup.of_append_right
  exact (nodup_cons.mp hnodup).1
    (mem_append_left _ (heq ▸ mem_loose_of_block hb))

theorem Open.of_node_eq {b : OpenBlock κ} (h : Open kinds full d b)
    (hnode : d'.node b.node = d.node b.node) : Open kinds full d' b where
  kind := by rw [Document.kind, hnode]; exact h.kind
  body := by rw [hnode]; exact h.body
  length_le := by rw [hnode]; exact h.length_le
  empty := by rw [hnode]; exact h.empty
  separators := h.separators

theorem Sound.of_frame {L' : List NodeId} (h : Sound kinds marks full d p L) (hf : d.Frame d' p.loose)
    (hp : d'.Plain) (hb : d'.Bodied kinds marks) (hg : d'.Grove (p.loose ++ L')) :
    Sound kinds marks full d' p L' :=
  ⟨hg, hp, hb, fun b hb =>
    (h.blocks b hb).of_node_eq (hf.node_eq _ (mem_loose_of_block hb) _ .refl)⟩

/-! ### What markers do to the document -/

theorem fill_eq (b : OpenBlock κ) (d : Document) :
    fill b d = d.modify b.node (Node.fill b.branch b.content) := by
  unfold fill
  split_ifs with h
  · exact (modify_id d b.node).symm.trans (modify_congr (if_pos h).symm)
  · exact modify_congr (if_neg h).symm

theorem enter_eq_ok {rule : BlockRule κ} (h : enter p id rule d = .ok p' d') :
    d' = d.modify id (Node.asBlock rule.kind) ∧ p' = { p with
      blocks := { node := id, separators := rule.separators, closer := rule.closer } :: p.blocks } := by
  cases h
  refine ⟨?_, rfl⟩
  have hopening : (d.setKind id rule.kind).branch id 0 = (d.node id).branch 0 :=
    modify_of_eq (·.branch 0) rfl
  beta_reduce
  rw [hopening, Document.setKind, Document.setBranch, Document.modifyBody, modify_modify, modify_modify]
  exact modify_congr rfl

theorem fill_modifyBody (b : OpenBlock κ) (d : Document) (g : Body → Body) :
    (fill b d).modifyBody b.node g = d.modify b.node (Node.absorb b.branch b.content g) := by
  rw [fill_eq, Document.modifyBody, modify_modify]
  refine modify_congr ?_
  rw [Node.absorb, body_fill]

theorem close_eq_ok {b : OpenBlock κ} {outer : List (OpenBlock κ)}
    (h : close p b outer id d = .ok p' d') :
    d' = d.modify b.node (Node.absorb b.branch b.content ({ · with closing := some id })) ∧
      p' = { p with blocks := outer }.put (.node b.node) := by
  cases h
  exact ⟨fill_modifyBody b d _, rfl⟩

theorem separate_eq_ok {b next : OpenBlock κ} {outer : List (OpenBlock κ)}
    (h : separate p b next outer id d = .ok p' d') :
    d' = d.modify b.node (Node.absorb b.branch b.content (·.mark next.branch id)) ∧
      p' = { p with blocks :=
        { next with content := (d'.branch next.node next.branch).reverse } :: outer } := by
  cases h
  exact ⟨fill_modifyBody b d _, rfl⟩

/-! ### Blocks that take in -/

section

variable (hm : m.Orderly full) (h : Sound kinds marks full d p (id :: L))
include hm h

theorem Sound.absorb {b : OpenBlock κ} {outer : List (OpenBlock κ)} {g : Body → Body} {body : Body}
    (hblocks : p.blocks = b :: outer)
    (hbody : (d.node b.node).payload = .body body) (hmarkers : full ∨ body.markers = [])
    (hmarkers' : full ∨ (g body).markers = []) (hopening : (g body).opening = body.opening)
    (hrefs : (g body).references.Perm (body.references ++ [id]))
    (hmark : ∀ m ∈ (g body).markers, m ∈ body.markers ∨ m.2 ≠ b.node ∧ d.kind m.2 ∈ marks)
    (htext : ∀ w bs, Filling (d.branches b.node) bs b.branch b.content.reverse →
      Document.wholeBody w bs (g body) = Document.wholeBody w (d.branches b.node) body ++
        (Document.writeBranch w b.content.reverse ++ w id))
    (hd' : d' = d.modify b.node (Node.absorb b.branch b.content g)) :
    Sound kinds marks full d' { p with blocks := outer } (b.node :: L) ∧
      ({ p with blocks := outer } : Progress κ).text m d' ++ d'.render m b.node =
        p.text m d ++ d.render m id ∧ d.Frame d' L := by
  subst hd'
  have hb : Open kinds full d b := h.blocks b (by rw [hblocks]; exact mem_cons_self)
  set p0 : Progress κ := { p with blocks := outer } with hp0
  have hloose : p.loose = b.node :: (b.content.nodes ++ p0.loose) := by
    simp [Progress.loose, Progress.pile, Pile.nodes, hblocks, hp0]
  have hgrove : d.Grove (b.node :: (b.content.nodes ++ (id :: (p0.loose ++ L)))) := by
    refine h.grove.perm ?_
    rw [hloose, cons_append, append_assoc]
    exact (perm_middle.append_left _).cons _
  have htaken := absorb_taken hm hgrove h.plain hbody hmarkers hmarkers' hopening hb.empty
    hrefs fun w => htext w _ (filling_fill _ hb.length_le hb.empty)
  set d' := d.modify b.node (Node.absorb b.branch b.content g)
  have hframe : d.Frame d' p0.loose := htaken.frame.mono (subset_append_left _ _)
  have hp₀s : Sound kinds marks full d p0 L := by
    refine ⟨hgrove.sublist ?_, h.plain, h.bodied, fun b' hb' => h.blocks b' ?_⟩
    · exact ((sublist_cons_self _ _).trans (sublist_append_right _ _)).trans
        (sublist_cons_self _ _)
    · rw [hblocks]
      exact mem_cons_of_mem _ hb'
  have hkind : ((d.node b.node).absorb b.branch b.content g).kind = d.kind b.node :=
    kind_fill _ _ _
  have hbodied : d'.Bodied kinds marks :=
    h.bodied.modify hgrove.lt_head (.inl hkind)
      (fun hk => absurd (hkind ▸ hb.kind) hk)
      (by simpa [Node.absorb, Node.body, Node.body?, hbody] using hmark)
  refine ⟨hp₀s.of_frame hframe htaken.plain hbodied (htaken.grove.perm perm_middle.symm), ?_,
    htaken.frame.mono (subset_append_right _ _)⟩
  rw [hp₀s.text_eq hm.isLocal hframe, htaken.render_eq]
  simp [Progress.text, Progress.pile, hblocks, hp0, Pile.text, Pile.openedText, String.append_assoc]

theorem Sound.close {b : OpenBlock κ} {outer : List (OpenBlock κ)} (hblocks : p.blocks = b :: outer)
    (hok : Nesting.close p b outer id d = .ok p' d') :
    Moves m kinds marks full d p d' p' L (d.render m id) := by
  obtain ⟨hd', rfl⟩ := close_eq_ok hok
  have hb := h.blocks b (by rw [hblocks]; exact mem_cons_self)
  obtain ⟨body, hbody, hclosing, hspan, hmarkers⟩ := hb.body
  obtain ⟨hsound, htext, hframe⟩ := h.absorb (g := ({ · with closing := some id })) hm
    hblocks hbody hmarkers hmarkers rfl (by simp [Body.references, hclosing]) (fun m hm => .inl hm)
    (fun w bs hf => wholeBody_closed hf hspan hclosing) hd'
  have hput := hsound.put_node (m := m)
  exact ⟨hput.sound, hput.text_eq.trans htext, hframe⟩

theorem Sound.separate {b next : OpenBlock κ} {outer : List (OpenBlock κ)} (hblocks : p.blocks = b :: outer)
    (hnode : next.node = b.node) (hlt : b.branch < next.branch) (hsep : b.separators ≠ [])
    (hid : full → d.kind id ∈ marks) (hok : Nesting.separate p b next outer id d = .ok p' d') :
    Moves m kinds marks full d p d' p' L (d.render m id) := by
  obtain ⟨hd', rfl⟩ := separate_eq_ok hok
  have hb := h.blocks b (by rw [hblocks]; exact mem_cons_self)
  -- a block with a separator is written as a whole
  have hfull : full := hb.separators.resolve_right hsep
  obtain ⟨body, hbody, hclosing, hspan, hmarkers⟩ := hb.body
  have hmark : ∀ m ∈ (body.mark next.branch id).markers,
      m ∈ body.markers ∨ m.2 ≠ b.node ∧ d.kind m.2 ∈ marks := fun m hm => by
    rcases mem_append.mp hm with hm | hm
    · exact .inl hm
    · obtain rfl := mem_singleton.mp hm
      exact .inr ⟨h.ne_of_mem_blocks (by rw [hblocks]; exact mem_cons_self), hid hfull⟩
  obtain ⟨hsound, htext, hframe⟩ := h.absorb (g := (·.mark next.branch id)) hm hblocks
    hbody hmarkers (.inl hfull) rfl (by simp [Body.mark, Body.references, hclosing]) hmark
    (fun w bs hf => wholeBody_marked hf hspan hlt hclosing) hd'
  have hlt' : b.node < d.size := h.lt_size
    (mem_loose_of_block (by rw [hblocks]; exact mem_cons_self))
  have hnode' : d'.node b.node = (d.node b.node).absorb b.branch b.content (·.mark next.branch id) := by
    rw [hd', modify_self hlt']
  have hfilling := filling_fill b.content hb.length_le hb.empty
  have hlen : (d'.node b.node).branches.length ≤ b.branch + 1 := by
    rw [hnode']
    exact hfilling.length_le'
  have hemp : d'.branch next.node next.branch = [] := by
    rw [hnode]
    exact getD_eq_default _ _ (by omega)
  rw [hemp, reverse_nil]
  refine ⟨⟨?_, hsound.plain, hsound.bodied, forall_mem_cons.mpr ⟨?_, hsound.blocks⟩⟩, ?_, hframe⟩
  · refine hsound.grove.perm ?_
    simp only [Progress.loose, Progress.pile, Pile.nodes, map_cons, flatMap_cons,
      Branch.nodes_nil, hnode]
    exact perm_middle
  · have hkind : d'.kind b.node = d.kind b.node := by
      rw [Document.kind, hnode']
      exact kind_fill _ _ _
    refine ⟨by rw [hnode, hkind]; exact hb.kind, ⟨body.mark next.branch id, ?_, hclosing, ?_,
      .inl hfull⟩, ?_, ?_, .inl hfull⟩
    · rw [hnode, hnode']
      simp [Node.absorb, Node.body, Node.body?, hbody]
    · rw [Body.span_mark]
      simp only
      omega
    · rw [hnode]
      simp only
      omega
    · exact hemp
  · rw [← htext]
    simp [Progress.text, Progress.pile, Pile.text, Pile.openedText, hnode, String.append_assoc]

end

/-! ### Markers -/

variable [DecidableEq κ] {n : Nesting κ}

/-- A nesting that writes blocks as their markers: markers have no body before, blocks are of kinds
that may have one, and what is written around an opening marker stays the same. Where `full` does not
hold there are no separators. -/
structure Faithful (n : Nesting κ) (kinds marks : List Kind) (full : Prop) : Prop where
  eligible : ∀ k ∈ n.eligible, k ∉ kinds
  marks : full → ∀ k ∈ n.eligible, k ∈ marks
  kind : ∀ key rule, n.table.get? key = some rule → rule.kind ∈ kinds
  separators : ∀ key rule, n.table.get? key = some rule → full ∨ rule.separators = []
  delimiters : ∀ d id key rule, n.key? d id = some key → n.table.get? key = some rule →
    rule.kind.openingDelimiters = (d.kind id).delimiters.getD ("", "")

theorem step_separates {b next : OpenBlock κ} {key : κ} (h : b.step key = .separates next) :
    next.node = b.node ∧ b.branch < next.branch ∧ b.separators ≠ [] := by
  unfold OpenBlock.step at h
  split_ifs at h with hcloser
  cases hi : b.separators.idxOf? key with
  | none => rw [hi] at h; cases h
  | some i =>
    rw [hi] at h
    cases h
    refine ⟨rfl, by simp only; omega, fun hnil => ?_⟩
    rw [hnil] at hi
    cases hi

theorem take_form (n : Nesting κ) (nested : NodeId → Edit Unit) (p : Progress κ) (id : NodeId) (d : Document) :
    n.take nested p id d = (do nested id; return p.put (.node id) : Edit (Progress κ)) d ∨
    (∃ key rule, n.key? d id = some key ∧ n.table.get? key = some rule ∧
      n.take nested p id d = enter p id rule d) ∨
    ∃ key b outer, n.key? d id = some key ∧ p.blocks = b :: outer ∧
      ((b.step key = .closes ∧ n.take nested p id d = close p b outer id d) ∨
        ∃ next, b.step key = .separates next ∧
          n.take nested p id d = separate p b next outer id d) := by
  rw [take, get_bind]
  cases hkey : n.key? d id with
  | none => exact .inl rfl
  | some key =>
    cases hrule : n.table.get? key with
    | some rule => exact .inr (.inl ⟨key, rule, rfl, hrule, by simp only [hrule]⟩)
    | none =>
      cases hblocks : p.blocks with
      | nil => exact .inl (by simp only [hrule])
      | cons b outer =>
        cases hstep : b.step key with
        | closes =>
          exact .inr (.inr ⟨key, b, outer, rfl, rfl, .inl ⟨hstep, by simp only [hrule, hstep]⟩⟩)
        | separates next =>
          exact .inr (.inr ⟨key, b, outer, rfl, rfl, .inr ⟨next, hstep, by simp only [hrule, hstep]⟩⟩)
        | content => exact .inl (by simp only [hrule, hstep])

theorem take_cases (h : n.take nested p id d = .ok p' d') :
    (nested id d = .ok () d' ∧ p' = p.put (.node id)) ∨
    (∃ key rule, n.key? d id = some key ∧ n.table.get? key = some rule ∧
      enter p id rule d = .ok p' d') ∨
    ∃ key b outer, n.key? d id = some key ∧ p.blocks = b :: outer ∧
      ((b.step key = .closes ∧ close p b outer id d = .ok p' d') ∨
        ∃ next, b.step key = .separates next ∧ separate p b next outer id d = .ok p' d') := by
  rcases take_form n nested p id d with heq | ⟨key, rule, hkey, hrule, heq⟩ |
    ⟨key, b, outer, hkey, hblocks, ⟨hstep, heq⟩ | ⟨next, hstep, heq⟩⟩ <;> rw [heq] at h
  · obtain ⟨_, _, hn, h⟩ := bind_eq_ok.mp h
    obtain ⟨rfl, rfl⟩ := pure_eq_ok.mp h
    exact .inl ⟨hn, rfl⟩
  · exact .inr (.inl ⟨key, rule, hkey, hrule, h⟩)
  · exact .inr (.inr ⟨key, b, outer, hkey, hblocks, .inl ⟨hstep, h⟩⟩)
  · exact .inr (.inr ⟨key, b, outer, hkey, hblocks, .inr ⟨next, hstep, h⟩⟩)

/-! ### Taking in a node -/

theorem error_of_take {e : Error} (h : n.take nested p id d = .error e d') : nested id d = .error e d' := by
  rcases take_form n nested p id d with heq | ⟨_, _, -, -, heq⟩ |
    ⟨_, _, _, -, -, ⟨-, heq⟩ | ⟨_, -, heq⟩⟩ <;> rw [heq] at h
  · rcases bind_eq_error.mp h with h | ⟨_, _, -, h⟩
    · exact h
    · cases h
  all_goals cases h

omit [DecidableEq κ] in
theorem kind_eligible {key : κ} (hkey : n.key? d id = some key) : d.kind id ∈ n.eligible := by
  rw [key?] at hkey
  split_ifs at hkey with hkind
  exact contains_iff_mem.mp hkind

theorem Sound.enter {key : κ} {rule : BlockRule κ} (hn : n.Faithful kinds marks full)
    (hm : m.Orderly full) (h : Sound kinds marks full d p (id :: L)) (hkey : n.key? d id = some key)
    (hrule : n.table.get? key = some rule) (hok : Nesting.enter p id rule d = .ok p' d') :
    Moves m kinds marks full d p d' p' L (d.render m id) := by
  obtain ⟨rfl, rfl⟩ := enter_eq_ok hok
  -- a node that can be a marker has no body yet
  obtain ⟨hnone, hlen⟩ := h.bodied.plain id (hn.eligible _ (kind_eligible hkey))
  obtain ⟨b, hb⟩ := length_eq_one_iff.mp hlen
  have hgrove : d.Grove (id :: (p.loose ++ L)) := h.grove.perm perm_middle
  have hret := asBlock_retold hm hgrove h.plain hnone hlen
    (hn.delimiters d id key rule hkey hrule)
  have hnode := (modify_self (f := Node.asBlock rule.kind)
    hgrove.lt_head).trans (node_asBlock rule.kind (by rw [Node.body?, hnone]) hb)
  set d' := d.modify id (Node.asBlock rule.kind)
  have hframe : d.Frame d' p.loose := hret.frame.mono (subset_append_left _ _)
  have hkind : rule.kind ∈ kinds := hn.kind key rule hrule
  have hbodied : d'.Bodied kinds marks :=
    h.bodied.modify hgrove.lt_head
      (.inr fun y => hgrove.not_mem_refs mem_cons_self) (fun hk => absurd hkind hk)
      (by simp [Node.asBlock, Node.body, Node.body?, hnone])
  refine ⟨⟨?_, hret.plain, hbodied, forall_mem_cons.mpr ⟨?_, fun b hb => ?_⟩⟩, ?_, hret.frame.mono (subset_append_right _ _)⟩
  · exact hret.grove
  · refine ⟨by rw [Document.kind, hnode]; exact hkind, ⟨_, by rw [hnode], rfl, ?_, .inr rfl⟩, ?_, ?_,
      hn.separators key rule hrule⟩
    · exact Nat.zero_le _
    · simp only [hnode, length_singleton]
      exact le_refl _
    · simp only [hnode]
      rfl
  · exact (h.blocks b hb).of_node_eq (hframe.node_eq _ (mem_loose_of_block hb) _ .refl)
  · rw [← h.text_eq hm.isLocal hframe, ← hret.render_eq]
    simp [Progress.text, Progress.pile, Pile.text, Pile.openedText, String.append_assoc]

/-- A way to go below the nodes that are kept, which leaves what is written for them as it was. -/
def Keeps (m : Manner) (kinds marks : List Kind) (nested : NodeId → Edit Unit) : Prop :=
  ∀ {d d' : Document} {id : NodeId} {L : List NodeId}, d.Grove (id :: L) → d.Plain →
    d.Bodied kinds marks → nested id d = .ok () d' → Retold m d d' id L ∧ d'.Bodied kinds marks

omit [DecidableEq κ] in
theorem Sound.keep (hm : m.Local) (h : Sound kinds marks full d p (id :: L))
    (hret : Retold m d d' id (p.loose ++ L)) (hb : d'.Bodied kinds marks) :
    Moves m kinds marks full d p d' (p.put (.node id)) L (d.render m id) := by
  have hframe : d.Frame d' p.loose := hret.frame.mono (subset_append_left _ _)
  have hput := (h.of_frame hframe hret.plain hb (hret.grove.perm perm_middle.symm)).put_node
    (m := m)
  refine ⟨hput.sound, ?_, hret.frame.mono (subset_append_right _ _)⟩
  rw [hput.text_eq, h.text_eq hm hframe, hret.render_eq]

theorem take_moves (hn : n.Faithful kinds marks full) (hm : m.Orderly full)
    (hk : Keeps m kinds marks nested) (h : Sound kinds marks full d p (id :: L))
    (hok : n.take nested p id d = .ok p' d') : Moves m kinds marks full d p d' p' L (d.render m id) := by
  rcases take_cases hok with ⟨hnested, rfl⟩ | ⟨key, rule, hkey, hrule, hok⟩ |
    ⟨key, b, outer, hkey, hblocks, ⟨-, hok⟩ | ⟨next, hstep, hok⟩⟩
  · obtain ⟨hret, hb⟩ := hk (h.grove.perm perm_middle) h.plain h.bodied hnested
    exact h.keep hm.isLocal hret hb
  · exact h.enter hn hm hkey hrule hok
  · exact h.close hm hblocks hok
  · obtain ⟨hnode, hlt, hsep⟩ := step_separates hstep
    exact h.separate hm hblocks hnode hlt hsep
      (fun hfull => hn.marks hfull _ (kind_eligible hkey)) hok

def takeFragment (n : Nesting κ) (nested : NodeId → Edit Unit) (p : Progress κ) (f : Fragment) :
    Edit (Progress κ) :=
  match f with
  | .text _ => return p.put f
  | .node id => n.take nested p id

/-- What is carried along while the fragments of a branch are taken in holds when all of them are. -/
theorem foldlM_induction {b : Branch} {P : Branch → Progress κ → Document → Prop}
    (htext : ∀ {s b p d}, P (.text s :: b) p d → P b (p.put (.text s)) d)
    (hnode : ∀ {x b p p' d d'}, P (.node x :: b) p d → n.take nested p x d = .ok p' d' → P b p' d')
    (h : P b p d) (hok : b.foldlM (n.takeFragment nested) p d = .ok p' d') : P [] p' d' := by
  induction b generalizing p d with
  | nil =>
    obtain ⟨rfl, rfl⟩ := pure_eq_ok.mp hok
    exact h
  | cons f b ih =>
    rw [foldlM_cons] at hok
    obtain ⟨p1, d1, hstep, hmore⟩ := bind_eq_ok.mp hok
    cases f with
    | text s =>
      obtain ⟨rfl, rfl⟩ := pure_eq_ok.mp hstep
      exact ih (htext h) hmore
    | node x => exact ih (hnode h hstep) hmore

theorem nestBranch_eq_ok {b b' : Branch} (hok : n.nestBranch nested b d = .ok b' d') :
    ∃ p : Progress κ, b.foldlM (n.takeFragment nested) {} d = .ok p d' ∧ p.blocks = [] ∧
      b' = p.out.reverse := by
  obtain ⟨p, d1, hfold, hok⟩ := bind_eq_ok.mp hok
  cases hlast : p.blocks.getLast? with
  | some outer => simp only [hlast] at hok; cases hok
  | none =>
    simp only [hlast] at hok
    obtain ⟨rfl, rfl⟩ := pure_eq_ok.mp hok
    exact ⟨p, hfold, List.getLast?_eq_none_iff.mp hlast, rfl⟩

section

variable (hn : n.Faithful kinds marks full) (hm : m.Orderly full)
include hn hm

theorem foldlM_moves {b : Branch} (hk : Keeps m kinds marks nested) (h : Sound kinds marks full d p (b.nodes ++ L))
    (hok : b.foldlM (n.takeFragment nested) p d = .ok p' d') :
    Moves m kinds marks full d p d' p' L (Document.writeBranch (d.render m) b) := by
  induction b generalizing p d with
  | nil =>
    obtain ⟨rfl, rfl⟩ := pure_eq_ok.mp hok
    exact ⟨h, by simp, .refl _ _⟩
  | cons f b ih =>
    rw [foldlM_cons] at hok
    obtain ⟨p1, d1, hstep, hmore⟩ := bind_eq_ok.mp hok
    cases f with
    | text s =>
      obtain ⟨rfl, rfl⟩ := pure_eq_ok.mp hstep
      have hput := h.put_text (m := m) s
      have hrest := ih hput.sound hmore
      refine ⟨hrest.sound, ?_, hrest.frame⟩
      rw [hrest.text_eq, hput.text_eq, branch_cons_text, String.append_assoc]
    | node id =>
      rw [Branch.nodes_cons_node, cons_append] at h
      have htake := take_moves hn hm hk h hstep
      have hrest := ih htake.sound hmore
      -- what comes later is written as at the start
      have hwrite : Document.writeBranch (d1.render m) b = Document.writeBranch (d.render m) b :=
        branch_congr fun c hc => by
          have hmem : c ∈ Branch.nodes b ++ L := mem_append_left _ hc
          exact htake.frame.render_eq hm.isLocal h.grove h.plain hmem (h.grove.lt_of_mem
            (mem_append_right _ (mem_cons_of_mem _ hmem))) .refl
      refine ⟨hrest.sound, ?_, (htake.frame.mono (subset_append_right _ _)).trans hrest.frame⟩
      rw [hrest.text_eq, htake.text_eq, hwrite, branch_cons_node, String.append_assoc]

/-! ### Nesting below a node -/

theorem nestBranch_retells {b b' : Branch} (hk : Keeps m kinds marks nested)
    (hg : d.Grove (b.nodes ++ L)) (hp : d.Plain) (hb : d.Bodied kinds marks)
    (hok : n.nestBranch nested b d = .ok b' d') : d'.Bodied kinds marks ∧ Retells m d d' b b' L := by
  obtain ⟨p, hfold, hblocks, rfl⟩ := nestBranch_eq_ok hok
  have hstart : Sound kinds marks full d ({} : Progress κ) (b.nodes ++ L) :=
    ⟨hg, hp, hb, fun b hb => absurd hb not_mem_nil⟩
  have hmoves := foldlM_moves hn hm hk hstart hfold
  refine ⟨hmoves.sound.bodied, ?_, hmoves.sound.plain, hmoves.frame, ?_⟩
  · refine hmoves.sound.grove.perm (List.Perm.append_right _ ?_)
    rw [Progress.loose, Progress.pile, hblocks, Branch.nodes_reverse]
    exact (reverse_perm _).symm
  · have htext := hmoves.text_eq
    simpa only [Progress.text, Progress.pile, hblocks, Pile.text, Pile.openedText, map_nil,
      String.append_empty, reverse_nil, writeBranch_nil, String.empty_append]
      using htext

theorem nestNode_keeps (levels : Nat) : Keeps m kinds marks (n.nestNode levels) := by
  induction levels with
  | zero =>
    intro d d' id L hg hp hb hok
    obtain ⟨-, rfl⟩ := pure_eq_ok.mp hok
    exact ⟨.refl m hg hp, hb⟩
  | succ levels ih =>
    intro d d' id L hg hp hb hok
    have hshallow : Shallow d.refs (d.size + 1) id :=
      (hg.shallow hg.lt_head).mono (Nat.le_succ _)
    exact (mapBranches_retold hm.isLocal hm.textual hg hp hb hshallow
      (fun d i b hb hi => hb.setBranch hi)
      (fun d b b' d' L hb hg hp _ hok => nestBranch_retells hn hm ih hg hp hb hok) hok).symm

theorem nest_retold (hg : d.Grove (id :: L))
    (hp : d.Plain) (hb : d.Bodied kinds marks) (hok : n.nest id d = .ok () d') :
    Retold m d d' id L ∧ d'.Bodied kinds marks := by
  rw [nest, get_bind] at hok
  exact nestNode_keeps hn hm d.size hg hp hb hok

end

end Nesting

end Stencil
