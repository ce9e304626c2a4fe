import Stencil.Proofs.Blocks.Outline
import Stencil.Proofs.Doc.Alike

/-!
# Unfolding blocks

A document `e` has been made of `d` by nesting. To unfold a list of `e` is to put, behind each node that
has become a block, the markers of the block and what is in its branches, unfolded in turn (`Unfolds`).
So while a list of distinct nodes is nested, what has been built keeps unfolding to what has been taken
in (`Unfolds.enter`, `Unfolds.absorb`).

Lists are compared as `Branch.items`, character by character, so that it does not matter how text is cut
into pieces.
-/

namespace Stencil

open Document Branch List

variable {d e e' : Document} {id : NodeId}

namespace Document

variable {b b' l l' L : List Item} {x y : NodeId}

def Made (d e : Document) (x : NodeId) : Prop :=
  (d.node x).body? = none ∧ (e.node x).body?.isSome

/-- What is behind the opening marker of a block: markers, branches and the closing marker. -/
def content (e : Document) (x : NodeId) : List Item :=
  Branch.items ((e.node x).body.flat (e.branches x))

/-- A list of `e` and what it was in `d`: behind each node that has become a block comes the content
of the block, unfolded as well. -/
inductive Unfolds (d e : Document) : List Item → List Item → Prop where
  | nil : Unfolds d e [] []
  | char {c : Char} {b l : List Item} : Unfolds d e b l → Unfolds d e (.char c :: b) (.char c :: l)
  | node {x : NodeId} {b l : List Item} : ¬ d.Made e x → Unfolds d e b l →
      Unfolds d e (.node x :: b) (.node x :: l)
  | block {x : NodeId} {b l inner : List Item} : d.Made e x → Unfolds d e (e.content x) inner →
      Unfolds d e b l → Unfolds d e (.node x :: b) (.node x :: (inner ++ l))

namespace Unfolds

theorem unique (h : Unfolds d e b l) (h' : Unfolds d e b l') : l = l' := by
  induction h generalizing l' with
  | nil => cases h'; rfl
  | char _ ih =>
    cases h' with
    | char h' => rw [ih h']
  | node hx _ ih =>
    cases h' with
    | node _ h' => rw [ih h']
    | block hx' _ _ => exact absurd hx' hx
  | block hx _ _ ihi ih =>
    cases h' with
    | node hx' _ => exact absurd hx hx'
    | block _ hi h' => rw [ihi hi, ih h']

theorem append (h : Unfolds d e b l) (h' : Unfolds d e b' l') : Unfolds d e (b ++ b') (l ++ l') := by
  induction h with
  | nil => exact h'
  | char _ ih => exact .char ih
  | node hx _ ih => exact .node hx ih
  | block hx hi _ _ ih =>
    rw [cons_append, cons_append, append_assoc]
    exact .block hx hi ih

theorem of_append (h : Unfolds d e (b ++ b') L) :
    ∃ l l', L = l ++ l' ∧ Unfolds d e b l ∧ Unfolds d e b' l' := by
  induction b generalizing L with
  | nil => exact ⟨[], L, rfl, .nil, h⟩
  | cons i b ih =>
    cases h with
    | char h =>
      obtain ⟨l, l', rfl, hl, hl'⟩ := ih h
      exact ⟨_, l', rfl, .char hl, hl'⟩
    | node hx h =>
      obtain ⟨l, l', rfl, hl, hl'⟩ := ih h
      exact ⟨_, l', rfl, .node hx hl, hl'⟩
    | block hx hi h =>
      obtain ⟨l, l', rfl, hl, hl'⟩ := ih h
      exact ⟨_, l', by rw [cons_append, append_assoc], .block hx hi hl, hl'⟩

theorem made_congr (h : e'.node x = e.node x) : d.Made e' x ↔ d.Made e x := by
  rw [Made, Made, h]

theorem congr (h : Unfolds d e b l) (hsame : ∀ x, .node x ∈ l → e'.node x = e.node x) :
    Unfolds d e' b l := by
  induction h with
  | nil => exact .nil
  | char _ ih => exact .char (ih fun x hx => hsame x (mem_cons_of_mem _ hx))
  | node hx _ ih =>
    refine .node ?_ (ih fun x hx => hsame x (mem_cons_of_mem _ hx))
    rwa [made_congr (hsame _ mem_cons_self)]
  | @block x b l inner hx hi _ ihi ih =>
    have hnode : e'.node x = e.node x := hsame x mem_cons_self
    have hcontent : e'.content x = e.content x := by
      rw [content, content, branches, branches, hnode]
    refine .block ((made_congr hnode).mpr hx) ?_ (ih fun y hy => hsame y ?_)
    · rw [hcontent]
      exact ihi fun y hy => hsame y (mem_cons_of_mem _ (mem_append_left _ hy))
    · exact mem_cons_of_mem _ (mem_append_right _ hy)

theorem self (h : ∀ x, .node x ∈ b → ¬ d.Made e x) : Unfolds d e b b := by
  induction b with
  | nil => exact .nil
  | cons i b ih =>
    have hb := ih fun x hx => h x (mem_cons_of_mem _ hx)
    cases i with
    | char c => exact .char hb
    | node x => exact .node (h x mem_cons_self) hb

theorem self_of_node_eq (h : ∀ x, .node x ∈ b → e.node x = d.node x) : Unfolds d e b b :=
  self fun x hx hm => by
    obtain ⟨hnone, hsome⟩ := hm
    rw [h x hx, hnone] at hsome
    cases hsome

theorem mem (h : Unfolds d e b l) (hx : .node x ∈ b) : .node x ∈ l := by
  induction h with
  | nil => cases hx
  | char _ ih => exact mem_cons_of_mem _ (ih (by simpa using hx))
  | node _ _ ih =>
    rcases mem_cons.mp hx with hx | hx
    · exact hx ▸ mem_cons_self
    · exact mem_cons_of_mem _ (ih hx)
  | block _ _ _ _ ih =>
    rcases mem_cons.mp hx with hx | hx
    · exact hx ▸ mem_cons_self
    · exact mem_cons_of_mem _ (mem_append_right _ (ih hx))

theorem snoc (h : Unfolds d e b l) (hx : ¬ d.Made e x) :
    Unfolds d e (b ++ [.node x]) (l ++ [.node x]) :=
  h.append (.node hx .nil)

theorem snoc_block (h : Unfolds d e b l) (hx : d.Made e x) (hemp : e.content x = []) :
    Unfolds d e (b ++ [.node x]) (l ++ [.node x]) := by
  have hinner : Unfolds d e (e.content x) [] := by
    rw [hemp]
    exact .nil
  exact h.append (.block hx hinner .nil)

theorem absorb (h : Unfolds d e (b ++ .node x :: b') L) (hx : d.Made e x) (hx' : d.Made e' x)
    (hL : L.count (.node x) ≤ 1) (hothers : ∀ y, y ≠ x → e'.node y = e.node y) (hid : ¬ d.Made e' id)
    (hcontent : e'.content x = e.content x ++ (b' ++ [.node id])) :
    Unfolds d e' (b ++ [.node x]) (L ++ [.node id]) := by
  obtain ⟨l, _, rfl, hl, hr⟩ := h.of_append
  cases hr with
  | node hn _ => exact absurd hx hn
  | @block _ _ l' inner _ hinner hl' =>
    -- the block itself is in the result once
    have hnot : .node x ∉ l ∧ .node x ∉ inner ∧ .node x ∉ l' := by
      simp only [count_append, count_cons_self] at hL
      exact ⟨count_eq_zero.mp (by omega), count_eq_zero.mp (by omega),
        count_eq_zero.mp (by omega)⟩
    have hsame : ∀ {l : List Item}, .node x ∉ l → ∀ y, .node y ∈ l → e'.node y = e.node y :=
      fun hx y hy => hothers y fun heq => hx (heq ▸ hy)
    have hflat := (hinner.congr (hsame hnot.2.1)).append ((hl'.congr (hsame hnot.2.2)).snoc hid)
    rw [← hcontent] at hflat
    simpa using (hl.congr (hsame hnot.1)).append (.block hx' hflat .nil)

end Unfolds

end Document

theorem Branch.count_items (b : Branch) (x : NodeId) : b.items.count (.node x) = b.nodes.count x := by
  induction b with
  | nil => rfl
  | cons f b ih =>
    cases f with
    | text s =>
      have hzero : (s.toList.map Item.char).count (.node x) = 0 :=
        count_eq_zero.mpr (by simp)
      simp [ih, hzero]
    | node id => simp [count_cons, ih]

namespace Nesting

open Document (Made Unfolds)

variable {κ : Type} {p p' : Progress κ} {done : Branch}

/-- What has been built as one list: what is outside all blocks, then each open block and what is
held for it, the outermost first. -/
def Progress.flat (p : Progress κ) : List Item :=
  Branch.items p.out.reverse ++ p.blocks.reverse.flatMap fun b => .node b.node :: Branch.items b.content.reverse

/-- The node of an open block: its body is not closed yet, and the branch that is being filled is its
last and still empty. -/
structure Unfinished (d e : Document) (b : OpenBlock κ) : Prop where
  made : d.Made e b.node
  body : ∃ body, (e.node b.node).payload = .body body ∧ body.closing = none ∧
    body.span ≤ b.branch + 1
  length_le : (e.node b.node).branches.length ≤ b.branch + 1
  empty : (e.node b.node).branch b.branch = []

/-- What has been built is what has been taken in, folded. -/
structure Gathered (d e : Document) (p : Progress κ) (done : Branch) : Prop where
  unfolds : d.Unfolds e p.flat done.items
  blocks : ∀ b ∈ p.blocks, Unfinished d e b

theorem flat_put (p : Progress κ) (f : Fragment) : (p.put f).flat = p.flat ++ Branch.items [f] := by
  rw [Progress.put]
  split
  case h_1 b outer h => simp [Progress.flat, h, items_stack]
  case h_2 h => simp [Progress.flat, h, items_stack]

theorem flat_of_blocks_eq {b : OpenBlock κ} {outer : List (OpenBlock κ)} (h : p.blocks = b :: outer) :
    p.flat = ({ p with blocks := outer } : Progress κ).flat ++ .node b.node :: Branch.items b.content.reverse := by
  simp [Progress.flat, h]

theorem Unfinished.congr {b : OpenBlock κ} (h : Unfinished d e b)
    (hnode : e'.node b.node = e.node b.node) : Unfinished d e' b where
  made := (Unfolds.made_congr hnode).mpr h.made
  body := by rw [hnode]; exact h.body
  length_le := by rw [hnode]; exact h.length_le
  empty := by rw [hnode]; exact h.empty

theorem unfinished_put {f : Fragment} (h : ∀ b ∈ p.blocks, Unfinished d e b) :
    ∀ b ∈ (p.put f).blocks, Unfinished d e b := by
  rw [Progress.put]
  split
  case h_1 b outer hb =>
    rw [hb, forall_mem_cons] at h
    exact forall_mem_cons.mpr ⟨⟨h.1.made, h.1.body, h.1.length_le, h.1.empty⟩, h.2⟩
  case h_2 hb => exact h

section

variable (h : Gathered d e p done)
include h

theorem Gathered.put_text (s : String) :
    Gathered d e (p.put (.text s)) (done ++ [.text s]) where
  unfolds := by
    rw [flat_put, items_append]
    exact h.unfolds.append (.self (by simp))
  blocks := unfinished_put h.blocks

theorem Gathered.keep (hsame : ∀ x ∈ done.nodes, e'.node x = e.node x)
    (hmem : ∀ b ∈ p.blocks, b.node ∈ done.nodes) (hid : ¬ d.Made e' id) :
    Gathered d e' (p.put (.node id)) (done ++ [.node id]) where
  unfolds := by
    rw [flat_put, items_append]
    exact (h.unfolds.congr fun x hx => hsame x (mem_items.mp hx)).snoc hid
  blocks := unfinished_put fun b hb => (h.blocks b hb).congr (hsame _ (hmem b hb))

theorem Gathered.enter {kind : Kind} {separators : List κ} {closer : κ}
    (hmem : ∀ b ∈ p.blocks, b.node ∈ done.nodes) (hid : id ∉ done.nodes) (hlt : id < e.size)
    (hnode : e.node id = d.node id) (hnone : (d.node id).body? = none)
    (hlen : (d.node id).branches.length = 1) :
    Gathered d (e.modify id (Node.asBlock kind))
      { p with blocks := { node := id, separators, closer } :: p.blocks } (done ++ [.node id]) := by
  obtain ⟨b, hb⟩ := length_eq_one_iff.mp hlen
  have hself := (modify_self (f := Node.asBlock kind) hlt).trans
    ((congrArg _ hnode).trans (node_asBlock kind hnone hb))
  set e' := e.modify id (Node.asBlock kind)
  have hsame : ∀ x ∈ done.nodes, e'.node x = e.node x := fun x hx =>
    modify_ne fun heq => hid (heq ▸ hx)
  have hmade : d.Made e' id := ⟨hnone, by rw [hself]; rfl⟩
  refine ⟨?_, forall_mem_cons.mpr ⟨⟨hmade, ⟨{ opening := b }, by rw [hself], rfl, ?_⟩, ?_, ?_⟩,
    fun b hb => (h.blocks b hb).congr (hsame _ (hmem b hb))⟩⟩
  · have hcontent : e'.content id = [] := by
      rw [Document.content, Document.branches, hself]
      rfl
    have hflat : ({ p with blocks := { node := id, separators, closer } :: p.blocks } :
        Progress κ).flat = p.flat ++ [.node id] := by
      simp [Progress.flat]
    rw [hflat, items_append]
    exact (h.unfolds.congr fun x hx => hsame x (mem_items.mp hx)).snoc_block hmade hcontent
  · exact Nat.zero_le _
  · rw [hself]
    exact le_refl _
  · rw [hself]
    rfl

theorem Gathered.absorb {b : OpenBlock κ} {outer : List (OpenBlock κ)} {g : Body → Body}
    (hblocks : p.blocks = b :: outer) (hdone : done.nodes.Nodup)
    (hlt : b.node < e.size) (hid : id ∉ done.nodes) (hnode : e.node id = d.node id)
    (hg : ∀ {body bs bs'}, (e.node b.node).payload = .body body →
      Filling bs bs' b.branch b.content.reverse → (g body).flat bs' =
        body.flat bs ++ (b.content.reverse ++ [.node id]))
    (he' : e' = e.modify b.node (Node.absorb b.branch b.content g)) :
    d.Unfolds e' (({ p with blocks := outer } : Progress κ).flat ++ [.node b.node])
      (Branch.items (done ++ [.node id])) ∧ ∀ b' ∈ outer, Unfinished d e' b' := by
  have hb := h.blocks b (hblocks ▸ mem_cons_self)
  obtain ⟨body, hbody, -, -⟩ := hb.body
  have hself : e'.node b.node = (e.node b.node).absorb b.branch b.content g := by
    rw [he', modify_self hlt]
  have hothers : ∀ y, y ≠ b.node → e'.node y = e.node y := fun y hy => by
    rw [he', modify_ne hy]
  have hunfolds := h.unfolds
  rw [flat_of_blocks_eq hblocks] at hunfolds
  have hcount : done.items.count (.node b.node) ≤ 1 := by
    rw [count_items]
    exact nodup_iff_count_le_one.mp hdone _
  have hbid : b.node ∈ done.nodes := mem_items.mp (hunfolds.mem (by simp))
  have hmade : d.Made e' b.node := ⟨hb.made.1, by rw [hself]; rfl⟩
  refine ⟨?_, fun b' hb' => (h.blocks b' ?_).congr (hothers _ fun heq => ?_)⟩
  · rw [items_append]
    refine hunfolds.absorb hb.made hmade hcount hothers ?_ ?_
    · rw [Unfolds.made_congr ((hothers id fun heq => hid (heq ▸ hbid)).trans hnode)]
      rintro ⟨hnone, hsome⟩
      rw [hnone] at hsome
      cases hsome
    · have hfill := hg hbody (Node.filling_fill b.content hb.length_le hb.empty)
      have hbody' : (e'.node b.node).body = g body := by
        rw [hself]
        simp [Node.absorb, Node.body, Node.body?, hbody]
      have hbs : e'.branches b.node = ((e.node b.node).fill b.branch b.content).branches := by
        rw [Document.branches, hself]
        rfl
      have hold : (e.node b.node).body = body := by simp [Node.body, Node.body?, hbody]
      rw [Document.content, Document.content, hbody', hbs, hold, hfill]
      simp [Document.branches]
  · rw [hblocks]
    exact mem_cons_of_mem _ hb'
  · -- a block that is open twice would have been taken in twice
    obtain ⟨l, l', hl, hl1, hl2⟩ := hunfolds.of_append
    have h1 : .node b.node ∈ l := hl1.mem (by
      rw [← heq]
      refine mem_append_right _ (mem_flatMap.mpr ⟨b', mem_reverse.mpr hb', ?_⟩)
      exact mem_cons_self)
    have h2 : .node b.node ∈ l' := hl2.mem mem_cons_self
    rw [hl, count_append] at hcount
    have h1 := count_pos_iff.mpr h1
    have h2 := count_pos_iff.mpr h2
    omega

theorem Gathered.close {b : OpenBlock κ} {outer : List (OpenBlock κ)}
    (hblocks : p.blocks = b :: outer) (hdone : done.nodes.Nodup) (hlt : b.node < e.size)
    (hid : id ∉ done.nodes) (hnode : e.node id = d.node id)
    (hok : Nesting.close p b outer id e = .ok p' e') : Gathered d e' p' (done ++ [.node id]) := by
  obtain ⟨he', rfl⟩ := close_eq_ok hok
  obtain ⟨body, hbody, hclosing, hspan⟩ := (h.blocks b (hblocks ▸ mem_cons_self)).body
  obtain ⟨hunfolds, houter⟩ := h.absorb hblocks hdone hlt hid hnode (fun hpayload hfill => by
    obtain rfl := Payload.body.inj (hbody.symm.trans hpayload)
    exact hfill.flat_closed hspan hclosing) he'
  refine ⟨?_, unfinished_put houter⟩
  rw [flat_put]
  exact hunfolds

theorem Gathered.separate {b next : OpenBlock κ} {outer : List (OpenBlock κ)}
    (hblocks : p.blocks = b :: outer) (hdone : done.nodes.Nodup)
    (hlt : b.node < e.size) (hid : id ∉ done.nodes) (hnode : e.node id = d.node id)
    (hnext : next.node = b.node) (hbranch : b.branch < next.branch)
    (hok : Nesting.separate p b next outer id e = .ok p' e') :
    Gathered d e' p' (done ++ [.node id]) := by
  obtain ⟨he', rfl⟩ := separate_eq_ok hok
  have hb := h.blocks b (hblocks ▸ mem_cons_self)
  obtain ⟨body, hbody, hclosing, hspan⟩ := hb.body
  obtain ⟨hunfolds, houter⟩ := h.absorb hblocks hdone hlt hid hnode (fun hpayload hfill => by
    obtain rfl := Payload.body.inj (hbody.symm.trans hpayload)
    exact hfill.flat_marked hspan hbranch hclosing) he'
  have hself : e'.node b.node = (e.node b.node).absorb b.branch b.content (·.mark next.branch id) := by
    rw [he', modify_self hlt]
  have hlen : (e'.node b.node).branches.length ≤ b.branch + 1 := by
    rw [hself]
    exact (Node.filling_fill b.content hb.length_le hb.empty).length_le'
  have hemp : e'.branch next.node next.branch = [] := by
    rw [hnext]
    exact getD_eq_default _ _ (by omega)
  rw [hemp, reverse_nil]
  refine ⟨?_, forall_mem_cons.mpr ⟨⟨?_, ⟨body.mark next.branch id, ?_, hclosing, ?_⟩, ?_, hemp⟩,
    houter⟩⟩
  · have hflat : ({ p with blocks := { next with content := [] } :: outer } : Progress κ).flat =
        ({ p with blocks := outer } : Progress κ).flat ++ [.node b.node] := by
      simp [Progress.flat, hnext]
    rw [hflat]
    exact hunfolds
  · rw [hnext]
    exact ⟨hb.made.1, by rw [hself]; rfl⟩
  · rw [hnext, hself]
    simp [Node.absorb, Node.body, Node.body?, hbody]
  · rw [Body.span_mark]
    simp only
    omega
  · rw [hnext]
    simp only
    omega

end

end Nesting

end Stencil
