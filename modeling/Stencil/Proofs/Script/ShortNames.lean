import Mathlib
import Stencil.Script.ShortName

/-!
# Short names are free

Every number has a name of its own: a word is read back as a number in base 26 with the digits 1 to
26 (`value_letters`). So among more names than are used and reserved one is free, and the name that
is chosen is neither in use nor reserved (`isFree_firstFree`).
-/

namespace Stencil.ShortName

open List

/-- The number that a word stands for, its letters read as digits 1 to 26. -/
def value (word : List Char) : Nat :=
  word.foldl (fun n c => 26 * n + (c.toNat - 96)) 0

theorem value_append_singleton (word : List Char) (c : Char) :
    value (word ++ [c]) = 26 * value word + (c.toNat - 96) := by
  simp [value, foldl_append]

theorem toNat_letter (i : Nat) : (letter i).toNat = 97 + i % 26 := by
  have hlt : i % 26 < 26 := Nat.mod_lt i (by decide)
  rw [letter, Char.toNat_ofNat, if_pos (Or.inl (by simp; omega))]
  simp

theorem value_letters (n : Nat) : value (letters n) = n := by
  induction n using Nat.strong_induction_on with
  | _ n ih =>
    rw [letters]
    split
    case isTrue h => simp [value, h]
    case isFalse h =>
      rw [value_append_singleton, ih ((n - 1) / 26) (by omega), toNat_letter]
      omega

theorem nth_injective : Function.Injective nth := by
  intro n m h
  have hw : letters (n + 1) = letters (m + 1) := String.ofList_injective h
  have hv := congrArg value hw
  rw [value_letters, value_letters] at hv
  omega

theorem isFree_iff {used : List String} {name : String} :
    isFree used name = true ↔ name ∉ used ∧ name ∉ reservedWords := by
  simp [isFree, isReserved]

theorem isFree_firstFreeFrom_or (used : List String) (count n : Nat) :
    isFree used (firstFreeFrom used count n) = true ∨
      ∀ k ≤ count, isFree used (nth (n + k)) = false := by
  induction count generalizing n with
  | zero =>
    by_cases h : isFree used (nth n) = true
    · exact .inl h
    · refine .inr fun k hk => ?_
      obtain rfl : k = 0 := by omega
      simpa using h
  | succ count ih =>
    rw [firstFreeFrom]
    split
    case isTrue h => exact .inl h
    case isFalse h =>
      rcases ih (n + 1) with hf | hall
      · exact .inl hf
      · refine .inr fun k hk => ?_
        cases k with
        | zero => simpa using h
        | succ k =>
          rw [show n + (k + 1) = n + 1 + k by omega]
          exact hall k (by omega)

theorem isFree_firstFree (used : List String) : isFree used (firstFree used) = true := by
  rcases isFree_firstFreeFrom_or used (used.length + reservedWords.length) 0 with h | hall
  · exact h
  -- one name more than are used and reserved would be all used or reserved
  · exfalso
    set count := used.length + reservedWords.length with hcount
    have hsub : (List.range (count + 1)).map nth ⊆ used ++ reservedWords := by
      intro name hname
      obtain ⟨k, hk, rfl⟩ := mem_map.mp hname
      have hk' := hall k (by have := mem_range.mp hk; omega)
      rw [Nat.zero_add] at hk'
      by_contra hnot
      rw [mem_append, not_or] at hnot
      rw [isFree_iff.mpr hnot] at hk'
      cases hk'
    have hle := ((nodup_range.map nth_injective).subperm hsub).length_le
    rw [length_map, length_range, length_append] at hle
    omega

theorem firstFree_not_mem (used : List String) : firstFree used ∉ used :=
  (isFree_iff.mp (isFree_firstFree used)).1

theorem firstFree_not_reserved (used : List String) : isReserved (firstFree used) = false := by
  have h := (isFree_iff.mp (isFree_firstFree used)).2
  simpa [isReserved] using h

end Stencil.ShortName
