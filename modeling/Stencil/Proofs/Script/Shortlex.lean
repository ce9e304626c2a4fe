import Stencil.Proofs.Script.ShortNames

/-!
# The order of short names

Words are ordered by length, and words of one length alphabetically. The numbers that words stand for
are in the same order (`value_lt_of_shortlex`), and every word is the name of a number. So **names are
counted in this order without a gap, and the name that is chosen is the least one that is free**
(`nth_in_order`).
-/

namespace Stencil.ShortName

open List

variable {c e : Char} {v w : List Char} {n m : Nat}

def IsWord (w : List Char) : Prop := ∀ c ∈ w, 'a' ≤ c ∧ c ≤ 'z'

/-- The order by length, and then letter by letter. -/
def Shortlex (v w : List Char) : Prop := v.length < w.length ∨ v.length = w.length ∧ v < w

def least : (length : Nat) → Nat
  | 0 => 0
  | length + 1 => least length + 26 ^ length

theorem letter_bounds (h : 'a' ≤ c ∧ c ≤ 'z') : 97 ≤ c.toNat ∧ c.toNat ≤ 122 := h

theorem value_cons (c : Char) (w : List Char) :
    value (c :: w) = (c.toNat - 96) * 26 ^ w.length + value w := by
  induction w using reverseRecOn with
  | nil => simp [value]
  | append_singleton w e ih =>
    rw [← cons_append, value_append_singleton, value_append_singleton, ih, length_append,
      length_singleton, pow_succ]
    ring

theorem value_bounds (hw : IsWord w) : least w.length ≤ value w ∧ value w < least (w.length + 1) := by
  induction w with
  | nil => simp [value, least]
  | cons c w ih =>
    obtain ⟨hc, hw⟩ := forall_mem_cons.mp hw
    obtain ⟨hlow, hhigh⟩ := ih hw
    have hletter := letter_bounds hc
    have hpos : 1 * 26 ^ w.length ≤ (c.toNat - 96) * 26 ^ w.length :=
      Nat.mul_le_mul_right _ (by omega)
    have hmax : (c.toNat - 96) * 26 ^ w.length ≤ 26 * 26 ^ w.length :=
      Nat.mul_le_mul_right _ (by omega)
    rw [value_cons, length_cons]
    simp only [least, pow_succ] at hhigh ⊢
    omega

theorem value_lt_of_lt (hv : IsWord v) (hw : IsWord w) (hlen : v.length = w.length) (h : v < w) :
    value v < value w := by
  induction v generalizing w with
  | nil =>
    cases w with
    | nil => exact absurd h (lt_irrefl _)
    | cons => cases hlen
  | cons c v ih =>
    cases w with
    | nil => cases hlen
    | cons e w =>
      obtain ⟨hc, hv'⟩ := forall_mem_cons.mp hv
      obtain ⟨he, hw'⟩ := forall_mem_cons.mp hw
      have hlen' : v.length = w.length := Nat.succ.inj hlen
      rw [value_cons, value_cons, hlen']
      rcases cons_lt_cons_iff.mp h with hlt | ⟨rfl, hlt⟩
      · have hce : c.toNat + 1 ≤ e.toNat := hlt
        have hletter := letter_bounds hc
        have hmul : (c.toNat - 96 + 1) * 26 ^ w.length ≤ (e.toNat - 96) * 26 ^ w.length :=
          Nat.mul_le_mul_right _ (by omega)
        have hhigh := (value_bounds hv').2
        have hlow := (value_bounds hw').1
        rw [hlen', least] at hhigh
        rw [Nat.add_mul, Nat.one_mul] at hmul
        omega
      · exact Nat.add_lt_add_left (ih hv' hw' hlen' hlt) _

theorem least_mono (h : n ≤ m) : least n ≤ least m := by
  induction h with
  | refl => exact le_refl _
  | step _ ih => exact ih.trans (Nat.le_add_right _ _)

theorem value_lt_of_shortlex (hv : IsWord v) (hw : IsWord w) (h : Shortlex v w) :
    value v < value w := by
  rcases h with hlen | ⟨hlen, h⟩
  · exact (value_bounds hv).2.trans_le ((least_mono hlen).trans (value_bounds hw).1)
  · exact value_lt_of_lt hv hw hlen h

theorem shortlex_of_value_lt (hv : IsWord v) (hw : IsWord w) (h : value v < value w) :
    Shortlex v w := by
  rcases lt_trichotomy v.length w.length with hlen | hlen | hlen
  · exact .inl hlen
  · rcases lt_trichotomy v w with hlt | rfl | hlt
    · exact .inr ⟨hlen, hlt⟩
    · exact absurd h (lt_irrefl _)
    · exact absurd (value_lt_of_lt hw hv hlen.symm hlt) h.asymm
  · exact absurd (value_lt_of_shortlex hw hv (.inl hlen)) h.asymm

theorem isWord_letters (n : Nat) : IsWord (letters n) := by
  induction n using Nat.strong_induction_on with
  | _ n ih =>
    rw [letters]
    split_ifs with h
    · exact fun c hc => absurd hc not_mem_nil
    · refine forall_mem_append.mpr ⟨ih _ (by omega), fun c hc => ?_⟩
      have hletter := toNat_letter (n - 1)
      rw [mem_singleton.mp hc]
      constructor
      · show 97 ≤ (letter (n - 1)).toNat
        omega
      · show (letter (n - 1)).toNat ≤ 122
        omega

theorem letters_value (hw : IsWord w) : letters (value w) = w := by
  induction w using reverseRecOn with
  | nil => simp [value, letters]
  | append_singleton w c ih =>
    obtain ⟨hw, hc⟩ := forall_mem_append.mp hw
    have hletter := letter_bounds (hc c mem_cons_self)
    rw [value_append_singleton, letters, dif_neg (by omega)]
    have hrest : (26 * value w + (c.toNat - 96) - 1) / 26 = value w := by omega
    have hlast : letter (26 * value w + (c.toNat - 96) - 1) = c := by
      have heq := toNat_letter (26 * value w + (c.toNat - 96) - 1)
      exact Char.ext (UInt32.toNat_inj.mp (heq.trans (by show _ = c.toNat; omega)))
    rw [hrest, hlast, ih hw]

theorem exists_firstFreeFrom (used : List String) (count n : Nat) : ∃ k,
    firstFreeFrom used count n = nth k ∧ ∀ j, n ≤ j → j < k → isFree used (nth j) = false := by
  induction count generalizing n with
  | zero => exact ⟨n, rfl, fun j hj hlt => absurd hlt (not_lt.mpr hj)⟩
  | succ count ih =>
    rw [firstFreeFrom]
    split_ifs with hfree
    · exact ⟨n, rfl, fun j hj hlt => absurd hlt (not_lt.mpr hj)⟩
    · obtain ⟨k, hk, hall⟩ := ih (n + 1)
      refine ⟨k, hk, fun j hj hlt => ?_⟩
      rcases hj.eq_or_lt with rfl | hj
      · exact Bool.eq_false_iff.mpr hfree
      · exact hall j hj hlt

theorem toList_nth (n : Nat) : (nth n).toList = letters (n + 1) := String.toList_ofList

theorem value_toList_nth (n : Nat) : value (nth n).toList = n + 1 := by
  rw [toList_nth, value_letters]

/-- **Names in order.** The names are the words over `a` to `z` that are not empty, each once, the
shorter ones first and those of one length in alphabetical order. The name that is chosen is free, and
it comes before all others that are. -/
theorem nth_in_order :
    (∀ n, (nth n).toList ≠ [] ∧ IsWord (nth n).toList) ∧
    (∀ n m, n < m → Shortlex (nth n).toList (nth m).toList) ∧
    (∀ w, w ≠ [] → IsWord w → ∃! n, (nth n).toList = w) ∧
    ∀ used : List String, (∃ n, firstFree used = nth n) ∧
      firstFree used ∉ used ∧ isReserved (firstFree used) = false ∧
      ∀ name : String, name.toList ≠ [] → IsWord name.toList → name ∉ used → isReserved name = false →
        name = firstFree used ∨ Shortlex (firstFree used).toList name.toList := by
  have hword : ∀ n, IsWord (nth n).toList := fun n => toList_nth n ▸ isWord_letters (n + 1)
  have hnth : ∀ w, w ≠ [] → IsWord w → ∃ n, (nth n).toList = w := fun w hne hw => by
    have hpos : value w ≠ 0 := fun hzero => hne (by rw [← letters_value hw, hzero, letters]; rfl)
    obtain ⟨n, hn⟩ := Nat.exists_eq_succ_of_ne_zero hpos
    exact ⟨n, by rw [toList_nth, ← Nat.succ_eq_add_one, ← hn, letters_value hw]⟩
  refine ⟨fun n => ⟨fun hemp => ?_, hword n⟩, fun n m h => ?_, fun w hne hw => ?_, fun used =>
    ⟨(exists_firstFreeFrom used _ 0).imp fun _ h => h.1, firstFree_not_mem used,
      firstFree_not_reserved used, fun name hne hw hused hres => ?_⟩⟩
  · have := value_toList_nth n
    rw [hemp] at this
    cases this
  · refine shortlex_of_value_lt (hword n) (hword m) ?_
    rw [value_toList_nth, value_toList_nth]
    exact Nat.succ_lt_succ h
  · obtain ⟨n, hn⟩ := hnth w hne hw
    exact ⟨n, hn, fun m hm => nth_injective (String.toList_injective (hm.trans hn.symm))⟩
  · obtain ⟨j, hj⟩ := hnth name.toList hne hw
    obtain rfl : nth j = name := String.toList_injective hj
    obtain ⟨k, hk, hall⟩ := exists_firstFreeFrom used (used.length + reservedWords.length) 0
    rw [firstFree, hk]
    rcases lt_trichotomy j k with hlt | rfl | hlt
    · have hfree := isFree_iff.mpr ⟨hused, by simpa [isReserved] using hres⟩
      rw [hall j (Nat.zero_le j) hlt] at hfree
      cases hfree
    · exact .inl rfl
    · refine .inr (shortlex_of_value_lt (hword k) (hword j) ?_)
      rw [value_toList_nth, value_toList_nth]
      exact Nat.succ_lt_succ hlt

end Stencil.ShortName
