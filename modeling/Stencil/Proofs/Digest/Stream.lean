import Mathlib
import Stencil.Digest.Key

/-!
# Telling parts apart

Several texts are hashed as one stream, in which the byte 255 ends every part. No text contains that
byte (`Key.separator_notMem_bytes`), so a stream is the stream of one list of parts only
(**`Key.stream_injective`**): where two lists of parts have one key, either they are equal or the
hash of two streams is the same. Nor is it the stream of a single text, unless nothing is hashed.
-/

namespace Stencil.Key

open List

theorem byteArray_loop_eq (b : ByteArray) (i : Nat) (r : List UInt8) :
    ByteArray.toList.loop b i r = r.reverse ++ b.data.toList.drop i := by
  fun_induction ByteArray.toList.loop b i r with
  | case1 i r hi ih =>
    have hlen : i < b.data.toList.length := by simpa using hi
    rw [ih, drop_eq_getElem_cons hlen]
    simp [ByteArray.get!, hi]
  | case2 i r hi =>
    rw [drop_eq_nil_of_le (by simpa using Nat.le_of_not_lt hi), append_nil]

theorem byteArray_toList_eq (b : ByteArray) : b.toList = b.data.toList := by
  rw [ByteArray.toList, byteArray_loop_eq]
  rfl

theorem bytes_eq_flatMap (s : String) : bytes s = s.toList.flatMap String.utf8EncodeChar := by
  have hencode : s.toByteArray = s.toList.utf8Encode := by
    rw [← String.toByteArray_ofList, String.ofList_toList]
  rw [bytes, String.toUTF8_eq_toByteArray, byteArray_toList_eq, hencode, List.utf8Encode,
    toList_data_toByteArray]

theorem bytes_injective : Function.Injective bytes := by
  intro s t h
  rw [bytes, bytes, String.toUTF8_eq_toByteArray, String.toUTF8_eq_toByteArray,
    byteArray_toList_eq, byteArray_toList_eq, Array.toList_inj] at h
  exact String.toByteArray_inj.mp (ByteArray.ext h)

theorem separator_ne_ofNat {n : Nat} (hn : n < 248) : separator ≠ UInt8.ofNat n := by
  intro h
  have hval := congrArg UInt8.toNat h
  rw [UInt8.toNat_ofNat', Nat.mod_eq_of_lt (by omega)] at hval
  have hsep : separator.toNat = 255 := rfl
  omega

theorem separator_notMem_utf8EncodeChar (c : Char) : separator ∉ String.utf8EncodeChar c := by
  rw [String.utf8EncodeChar]
  split_ifs <;> simp only [mem_cons, not_mem_nil, or_false, not_or]
  · exact separator_ne_ofNat (by omega)
  · exact ⟨separator_ne_ofNat (by omega), separator_ne_ofNat (by omega)⟩
  · exact ⟨separator_ne_ofNat (by omega), separator_ne_ofNat (by omega),
      separator_ne_ofNat (by omega)⟩
  · exact ⟨separator_ne_ofNat (by omega), separator_ne_ofNat (by omega),
      separator_ne_ofNat (by omega), separator_ne_ofNat (by omega)⟩

theorem separator_notMem_bytes (s : String) : separator ∉ bytes s := by
  rw [bytes_eq_flatMap, mem_flatMap]
  rintro ⟨c, -, hc⟩
  exact separator_notMem_utf8EncodeChar c hc

theorem stream_cons (part : String) (parts : List String) :
    stream (part :: parts) = bytes part ++ separator :: stream parts := by
  rw [stream, flatMap_cons, append_assoc]
  rfl

theorem append_separator_inj {b b' r r' : List UInt8} (hb : separator ∉ b) (hb' : separator ∉ b')
    (h : b ++ separator :: r = b' ++ separator :: r') : b = b' ∧ r = r' := by
  induction b generalizing b' with
  | nil =>
    cases b' with
    | nil => exact ⟨rfl, tail_eq_of_cons_eq h⟩
    | cons x b' => cases h; exact absurd mem_cons_self hb'
  | cons x b ih =>
    cases b' with
    | nil => cases h; exact absurd mem_cons_self hb
    | cons y b' =>
      obtain ⟨rfl, htail⟩ := cons_eq_cons.mp h
      obtain ⟨rfl, hr⟩ := ih (fun hm => hb (mem_cons_of_mem _ hm))
        (fun hm => hb' (mem_cons_of_mem _ hm)) htail
      exact ⟨rfl, hr⟩

theorem stream_injective : Function.Injective stream := by
  intro p
  induction p with
  | nil =>
    intro q h
    cases q with
    | nil => rfl
    | cons t q => rw [stream_cons] at h; simp [stream] at h
  | cons s p ih =>
    intro q h
    cases q with
    | nil => rw [stream_cons] at h; simp [stream] at h
    | cons t q =>
      rw [stream_cons, stream_cons] at h
      obtain ⟨hbytes, hrest⟩ :=
        append_separator_inj (separator_notMem_bytes s) (separator_notMem_bytes t) h
      rw [bytes_injective hbytes, ih hrest]

theorem stream_eq_bytes_iff (p : List String) (s : String) :
    stream p = bytes s ↔ p = [] ∧ s = "" := by
  have hempty : bytes "" = [] := by simp [bytes_eq_flatMap]
  constructor
  · intro h
    cases p with
    | nil => exact ⟨rfl, bytes_injective (h.symm.trans hempty.symm)⟩
    | cons part p =>
      have hmem : separator ∈ bytes s := by simp [← h, stream_cons]
      exact absurd hmem (separator_notMem_bytes s)
  · rintro ⟨rfl, rfl⟩
    exact hempty.symm

/-- A stream tells its list of parts, and tells it from every single text but the empty one. -/
theorem stream_unambiguous (p q : List String) (s : String) :
    (stream p = stream q ↔ p = q) ∧ (stream p = bytes s ↔ p = [] ∧ s = "") :=
  ⟨stream_injective.eq_iff, stream_eq_bytes_iff p s⟩

end Stencil.Key
