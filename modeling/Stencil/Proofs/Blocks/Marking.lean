import Stencil.Proofs.Blocks.Unfolding

/-!
# The branches of blocks

A block goes along the list of markers that may follow its opening one. The index of the branch that is
being filled and the markers still to come make up that list (`OpenBlock.Follows`), whether markers are
skipped or not. So the indices that a block records grow, and stay below the length of the list
(`Marked`).
-/

namespace Stencil

open Document List

variable {κ : Type} {t : BlockTable κ} {old new new' : Node} {b next : OpenBlock κ} {id : NodeId}

/-- The markers behind the opening one, in order. -/
def BlockRule.follow (r : BlockRule κ) : List κ := r.separators ++ [r.closer]

namespace OpenBlock

def follow (b : OpenBlock κ) : List κ := b.separators ++ [b.closer]

def Follows (b : OpenBlock κ) (rule : BlockRule κ) : Prop := b.follow = rule.follow.drop b.branch

variable {rule : BlockRule κ}

theorem Follows.length_eq (h : b.Follows rule) : b.branch + b.follow.length = rule.follow.length := by
  have hlength := congrArg length h
  have hpos : 0 < b.follow.length := by simp [follow]
  rw [length_drop] at hlength
  omega

theorem Follows.lt (h : b.Follows rule) : b.branch < rule.follow.length := by
  rw [← h.length_eq]
  simp [follow]

theorem Follows.step [DecidableEq κ] {key : κ} (h : b.Follows rule)
    (hstep : b.step key = .separates next) : next.Follows rule := by
  unfold OpenBlock.step at hstep
  split_ifs at hstep
  cases hi : b.separators.idxOf? key with
  | none => rw [hi] at hstep; cases hstep
  | some i =>
    rw [hi] at hstep
    cases hstep
    have hlt : i + 1 ≤ b.separators.length := by
      rw [idxOf?_eq_some_iff] at hi
      exact hi.choose
    have hdrop : rule.follow.drop (b.branch + (i + 1)) = b.follow.drop (i + 1) := by
      rw [show b.follow = _ from h, drop_drop]
    exact (hdrop.trans (drop_append_of_le_length hlt)).symm

end OpenBlock

/-- Markers of ever later branches have been recorded behind those from before, none for the first
branch. -/
def Node.Recorded (old new : Node) (bound : Nat) : Prop :=
  ∃ ms, new.body.markers = old.body.markers ++ ms ∧ (ms.map Prod.fst).Pairwise (· < ·) ∧
    ∀ m ∈ ms, 1 ≤ m.1 ∧ m.1 < bound

namespace BlockTable

variable [DecidableEq κ]

/-- A node with the markers it had, or with those of a block of the table recorded. -/
def Marked (t : BlockTable κ) (old new : Node) : Prop :=
  new.body.markers = old.body.markers ∨ ∃ key rule, t.get? key = some rule ∧ rule.kind = new.kind ∧
    old.Recorded new rule.follow.length

/-- All nodes of a document that has been made of another one are marked. -/
def MarksAll (t : BlockTable κ) (d e : Document) : Prop := ∀ q, t.Marked (d.node q) (e.node q)

theorem MarksAll.modify {f : Node → Node} (h : t.MarksAll d e) (x : NodeId)
    (hx : x < e.size → t.Marked (d.node x) (f (e.node x))) : t.MarksAll d (e.modify x f) := by
  intro q
  rcases node_modify_cases e x f q with heq | ⟨hlt, rfl, heq⟩ <;> rw [heq]
  · exact h q
  · exact hx hlt

theorem MarksAll.setBranch (h : t.MarksAll d e) (x : NodeId) (i : Nat) (b : Branch) :
    t.MarksAll d (e.setBranch x i b) := h.modify x fun _ => h x

def Fits (t : BlockTable κ) (old new : Node) (b : OpenBlock κ) : Prop :=
  ∃ key rule, t.get? key = some rule ∧ rule.kind = new.kind ∧ b.Follows rule ∧
    old.Recorded new (b.branch + 1)

theorem Fits.marked (h : t.Fits old new b) : t.Marked old new := by
  obtain ⟨key, rule, hrule, hkind, hfollows, ms, hms, hlt, hbound⟩ := h
  refine .inr ⟨key, rule, hrule, hkind, ms, hms, hlt, fun m hm => ⟨(hbound m hm).1, ?_⟩⟩
  exact (hbound m hm).2.trans_le hfollows.lt

theorem Fits.separate {key : κ} (h : t.Fits old new b) (hstep : b.step key = .separates next)
    (hkind : new'.kind = new.kind) (hbranch : b.branch < next.branch)
    (hmarkers : new'.body.markers = new.body.markers ++ [(next.branch, id)]) :
    t.Fits old new' next := by
  obtain ⟨k, rule, hrule, hk, hfollows, ms, hms, hlt, hbound⟩ := h
  refine ⟨k, rule, hrule, hk.trans hkind.symm, hfollows.step hstep, ms ++ [(next.branch, id)], ?_, ?_, ?_⟩
  · rw [hmarkers, hms, append_assoc]
  · rw [map_append, pairwise_append]
    refine ⟨hlt, pairwise_singleton _ _, fun i hi j hj => ?_⟩
    obtain ⟨m, hm, rfl⟩ := mem_map.mp hi
    rw [mem_singleton.mp hj]
    have := (hbound m hm).2
    omega
  · refine forall_mem_append.mpr ⟨fun m hm => ⟨(hbound m hm).1, ?_⟩, forall_mem_singleton.mpr ⟨?_, ?_⟩⟩
    · have := (hbound m hm).2
      omega
    all_goals simp only; omega

end BlockTable

namespace Nesting

variable [DecidableEq κ] {d e e' : Document} {p : Progress κ} {outer : List (OpenBlock κ)}
  {S : List NodeId}

/-- What is recorded below the nodes of a list, some of which are open blocks. -/
structure Marks (t : BlockTable κ) (d e : Document) (p : Progress κ) (S : List NodeId) : Prop where
  nodup : (p.blocks.map OpenBlock.node).Nodup
  blocks : ∀ b ∈ p.blocks, b.node ∈ S ∧ t.Fits (d.node b.node) (e.node b.node) b
  marked : t.MarksAll d e

namespace Marks

variable (h : Marks t d e p S)
include h

theorem congr (hsame : ∀ c ∈ S, e'.node c = e.node c) (hmarked : t.MarksAll d e') :
    Marks t d e' p S := by
  refine ⟨h.nodup, fun b hb => ?_, hmarked⟩
  obtain ⟨hmem, hfits⟩ := h.blocks b hb
  rw [hsame _ hmem]
  exact ⟨hmem, hfits⟩

theorem snoc (id : NodeId) : Marks t d e p (S ++ [id]) :=
  ⟨h.nodup, fun b hb => ⟨mem_append_left _ (h.blocks b hb).1, (h.blocks b hb).2⟩, h.marked⟩

theorem put (f : Fragment) : Marks t d e (p.put f) S := by
  obtain ⟨hnodup, hblocks, hmarked⟩ := h
  rw [Progress.put]
  split
  case h_1 b outer hb =>
    rw [hb] at hnodup hblocks
    exact ⟨hnodup, forall_mem_cons.mpr (forall_mem_cons.mp hblocks), hmarked⟩
  case h_2 => exact ⟨hnodup, hblocks, hmarked⟩

theorem push (hfresh : ∀ o ∈ p.blocks, b.node ≠ o.node) (hmem : b.node ∈ S)
    (hfits : t.Fits (d.node b.node) (e.node b.node) b) :
    Marks t d e { p with blocks := b :: p.blocks } S := by
  refine ⟨nodup_cons.mpr ⟨fun hb => ?_, h.nodup⟩, forall_mem_cons.mpr ⟨⟨hmem, hfits⟩, h.blocks⟩, h.marked⟩
  obtain ⟨o, ho, heq⟩ := mem_map.mp hb
  exact hfresh o ho heq.symm

theorem pop (hblocks : p.blocks = b :: outer) : Marks t d e { p with blocks := outer } S := by
  obtain ⟨hnodup, hfits, hmarked⟩ := h
  rw [hblocks] at hnodup hfits
  exact ⟨hnodup.of_cons, (forall_mem_cons.mp hfits).2, hmarked⟩

theorem absorb {f : Node → Node} (hblocks : p.blocks = b :: outer) (hnode : next.node = b.node)
    (hfits : t.Fits (d.node b.node) ((e.modify b.node f).node b.node) next) :
    Marks t d (e.modify b.node f) { p with blocks := next :: outer } S := by
  obtain ⟨hnodup, hblock, hmarked⟩ := h
  rw [hblocks] at hnodup hblock
  obtain ⟨⟨hmem, -⟩, hblock⟩ := forall_mem_cons.mp hblock
  refine ⟨?_, forall_mem_cons.mpr ⟨?_, fun o ho => ?_⟩, fun q => ?_⟩
  · rw [map_cons, hnode]
    exact hnodup
  · rw [hnode]
    exact ⟨hmem, hfits⟩
  · have hne : o.node ≠ b.node := fun heq => (nodup_cons.mp hnodup).1 (heq ▸ mem_map_of_mem ho)
    rw [modify_ne hne]
    exact hblock o ho
  · by_cases heq : q = b.node
    · rw [heq]
      exact hfits.marked
    · rw [modify_ne heq]
      exact hmarked q

end Marks

end Nesting

end Stencil
