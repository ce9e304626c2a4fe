import Mathlib
import Stencil.Doc.Node

/-!
# Depth

Functions on documents go down a given number of levels. This module says when that number is enough:
`Shallow next n a` holds if no path along `next` from `a` has more than `n` nodes. A node that is
shallow at all is shallow for the number of nodes there are (`Shallow.of_lt`), since no path meets a
node twice.
-/

namespace Stencil

open List

/-- No path along `next` that starts at the node has more than `levels` nodes. -/
def Shallow (next : NodeId → List NodeId) : (levels : Nat) → NodeId → Prop
  | 0, _ => False
  | levels + 1, id => ∀ c ∈ next id, Shallow next levels c

/-- The second node is reached from the first along `next`, in any number of steps. -/
abbrev Reaches (next : NodeId → List NodeId) : NodeId → NodeId → Prop :=
  Relation.ReflTransGen fun p c => c ∈ next p

variable {next next' : NodeId → List NodeId} {n m : Nat} {a b c : NodeId}

namespace Reaches

theorem child (h : c ∈ next a) : Reaches next a c := Relation.ReflTransGen.single h

theorem congr (h : ∀ x, Reaches next a x → next' x = next x) (hr : Reaches next a b) :
    Reaches next' a b := by
  induction hr with
  | refl => exact .refl
  | tail hp hc ih => exact ih.tail (by rw [h _ hp]; exact hc)

theorem congr_iff (h : ∀ x, Reaches next a x → next' x = next x) :
    Reaches next' a b ↔ Reaches next a b := by
  refine ⟨fun hr => ?_, congr h⟩
  induction hr with
  | refl => exact .refl
  | tail _ hc ih => exact ih.tail (by rw [← h _ ih]; exact hc)

theorem eq_or_child (h : Reaches next a b) : a = b ∨ ∃ c ∈ next a, Reaches next c b := by
  rcases Relation.ReflTransGen.cases_head h with rfl | ⟨c, hc, hr⟩
  · exact .inl rfl
  · exact .inr ⟨c, hc, hr⟩

theorem mono (h : ∀ x, next x ⊆ next' x) (hr : Reaches next a b) : Reaches next' a b :=
  Relation.ReflTransGen.mono (fun p _ hc => h p hc) _ _ hr

end Reaches

namespace Shallow

theorem mono (h : Shallow next n a) (hnm : n ≤ m) : Shallow next m a := by
  induction n generalizing a m with
  | zero => exact h.elim
  | succ n ih =>
    obtain ⟨m, rfl⟩ : ∃ k, m = k + 1 := ⟨m - 1, by omega⟩
    intro c hc
    exact ih (h c hc) (by omega)

theorem of_subset (hsub : ∀ x, Reaches next a x → next' x ⊆ next x) (h : Shallow next n a) :
    Shallow next' n a := by
  induction n generalizing a with
  | zero => exact h.elim
  | succ n ih =>
    intro c hc
    have hc' : c ∈ next a := hsub a .refl hc
    exact ih (fun x hx => hsub x ((Reaches.child hc').trans hx)) (h c hc')

theorem exists_succ (h : Shallow next n a) : ∃ k, n = k + 1 := by
  cases n with
  | zero => exact h.elim
  | succ n => exact ⟨n, rfl⟩

theorem child (h : Shallow next n a) (hc : c ∈ next a) : Shallow next (n - 1) c := by
  cases n with
  | zero => exact h.elim
  | succ n => exact h c hc

theorem reaches (h : Shallow next n a) (hr : Reaches next a b) : Shallow next n b := by
  induction hr with
  | refl => exact h
  | tail _ hc ih => exact (ih.child hc).mono (Nat.sub_le n 1)

theorem not_reaches (h : Shallow next n a) (hc : c ∈ next a) : ¬ Reaches next c a := by
  induction n with
  | zero => exact h.elim
  | succ n ih => exact fun hr => ih ((h c hc).reaches hr) hr

theorem of_card (hs : Shallow next n a) (s : Finset NodeId) (h : ∀ x, Reaches next a x → x ∈ s) :
    Shallow next s.card a := by
  induction n generalizing a s with
  | zero => exact hs.elim
  | succ n ih =>
    have ha : a ∈ s := h a .refl
    rw [← Finset.card_erase_add_one ha]
    intro c hc
    refine ih (hs c hc) _ fun x hx => Finset.mem_erase.mpr ⟨?_, h x ((Reaches.child hc).trans hx)⟩
    rintro rfl
    exact not_reaches hs hc hx

theorem of_lt (hs : Shallow next n a) (h : ∀ x, Reaches next a x → x < m) : Shallow next m a := by
  simpa using hs.of_card (Finset.range m) fun x hx => Finset.mem_range.mpr (h x hx)

end Shallow

/-- A way down from `top`: the nodes on it, the last one first. -/
inductive Descent (next : NodeId → List NodeId) (top : NodeId) : NodeId → List NodeId → Prop where
  | top : Descent next top top [top]
  | step {p c : NodeId} {path : List NodeId} : Descent next top p path → c ∈ next p →
      Descent next top c (c :: path)

theorem Descent.reaches {path : List NodeId} (h : Descent next a b path) : Reaches next a b := by
  induction h with
  | top => exact .refl
  | step _ hc ih => exact ih.tail hc

theorem shallow_of_descents {N : Nat}
    (h : ∀ x path, Descent next a x path → path.Nodup ∧ ∀ y ∈ path, y < N) : Shallow next N a := by
  -- by induction on the levels left, with the way down so far
  have key : ∀ k x path, Descent next a x path → path.length + k = N + 1 → Shallow next k x := by
    intro k
    induction k with
    | zero =>
      intro x path hd hlen
      obtain ⟨hn, hlt⟩ := h x path hd
      have hsub : path ⊆ List.range N := fun y hy => mem_range.mpr (hlt y hy)
      have hle := (hn.subperm hsub).length_le
      rw [length_range] at hle
      omega
    | succ k ih =>
      intro x path hd hlen c hc
      exact ih c (c :: path) (.step hd hc) (by simp only [length_cons]; omega)
  exact key N a [a] .top (by simp only [length_singleton]; omega)

end Stencil
