import Stencil.Proofs.Stylesheet.Rebasing

/-!
# Normal forms of paths

A path names a place: its segments are followed one by one, from the root if it starts with a slash and
from some directory otherwise. **The normal form of a path names the same place, from every directory; it
has no segment that could be left out, and it is its own normal form** (`normalizePath_canonical`).
-/

namespace Stencil.Stylesheet

open List Text

variable {path segment : String} {done parts start : List String} {absolute : Bool}

/-- The directory that a segment leads to. A directory is given by its names, the last first. -/
def follow (place : List String) (segment : String) : List String :=
  if segment = "" || segment = "." then place
  else if segment = ".." then place.tail
  else segment :: place

/-- The place that a path names, seen from a directory. -/
def resolve (start : List String) (path : String) : List String :=
  (segments path).foldl follow (if startsAtRoot path then [] else start)

/-- Segments in normal form, the last first: names, and in front of them steps up from a directory
that is not the root. -/
inductive Normal (absolute : Bool) : List String → Prop where
  | root : Normal absolute []
  | up {done : List String} : absolute = false → Normal absolute done → (∀ s ∈ done, s = "..") →
      Normal absolute (".." :: done)
  | name {segment : String} {done : List String} : segment ∉ ["", ".", ".."] →
      '/' ∉ segment.toList → Normal absolute done → Normal absolute (segment :: done)

theorem follow_of_name (h : segment ∉ ["", ".", ".."]) (place : List String) :
    follow place segment = segment :: place := by
  simp only [mem_cons, not_mem_nil, or_false, not_or] at h
  simp [follow, h]

theorem descend_normal (h : Normal absolute done) (hs : '/' ∉ segment.toList) :
    Normal absolute (descend absolute done segment) := by
  by_cases hnone : (segment = "" || segment = ".") = true
  · rwa [descend_of_none hnone]
  by_cases hup : segment = ".."
  · subst hup
    cases h with
    | root => cases absolute with
      | false => exact .up rfl .root (by simp)
      | true => exact .root
    | up habs hdone hall => exact .up habs (.up habs hdone hall) (forall_mem_cons.mpr ⟨rfl, hall⟩)
    | @name segment _ hname _ hdone =>
      have hne : segment ≠ ".." := fun heq => hname (by simp [heq])
      simpa [descend, hne] using hdone
  · have hname : segment ∉ ["", ".", ".."] := by simp_all
    rw [descend_of_name hname]
    exact .name hname hs h

theorem follow_foldr (h : Normal absolute done) (hstart : absolute = true → start = []) :
    (descend absolute done segment).foldr (fun s place => follow place s) start =
      follow (done.foldr (fun s place => follow place s) start) segment := by
  by_cases hnone : (segment = "" || segment = ".") = true
  · rw [descend_of_none hnone, follow, if_pos hnone]
  by_cases hup : segment = ".."
  · subst hup
    cases h with
    | root => cases absolute with
      | false => rfl
      | true => rw [hstart rfl]; rfl
    | up => rfl
    | @name segment done hname _ hdone =>
      have hne : segment ≠ ".." := fun heq => hname (by simp [heq])
      have hback : descend absolute (segment :: done) ".." = done := by simp [descend, hne]
      rw [hback, foldr_cons, follow_of_name hname]
      rfl
  · rw [descend_of_name (by simp_all), foldr_cons]

theorem normal_foldl {segs : List String} (hs : ∀ s ∈ segs, '/' ∉ s.toList)
    (h : Normal absolute done) (hstart : absolute = true → start = []) :
    Normal absolute (segs.foldl (descend absolute) done) ∧
      (segs.foldl (descend absolute) done).foldr (fun s place => follow place s) start =
        segs.foldl follow (done.foldr (fun s place => follow place s) start) := by
  induction segs generalizing done with
  | nil => exact ⟨h, rfl⟩
  | cons s segs ih =>
    obtain ⟨hs, hsegs⟩ := forall_mem_cons.mp hs
    obtain ⟨hnormal, hplace⟩ := ih hsegs (descend_normal h hs)
    refine ⟨hnormal, ?_⟩
    rw [foldl_cons, hplace, follow_foldr h hstart, foldl_cons]

theorem Normal.foldl_descend (h : Normal absolute done) :
    done.reverse.foldl (descend absolute) [] = done := by
  rw [foldl_reverse]
  induction h with
  | root => rfl
  | @up done habs _ hall ih =>
    rw [foldr_cons, ih, habs]
    cases done with
    | nil => rfl
    | cons s done => simp [descend, hall s mem_cons_self]
  | name hname _ _ ih => rw [foldr_cons, ih, descend_of_name hname]

theorem Normal.proper (h : Normal absolute done) : ∀ s ∈ done, s ≠ "" ∧ '/' ∉ s.toList := by
  induction h with
  | root => simp
  | up _ _ _ ih => exact forall_mem_cons.mpr ⟨⟨by decide, by decide⟩, ih⟩
  | name hname hs _ ih => exact forall_mem_cons.mpr ⟨⟨fun h => hname (by simp [h]), hs⟩, ih⟩

theorem slash_notMem_of_mem_segments (h : segment ∈ segments path) : '/' ∉ segment.toList := by
  obtain ⟨s, hs, rfl⟩ := mem_map.mp h
  simpa using notMem_of_mem_splitSlashes hs

theorem segments_slash (path : String) : segments ("/" ++ path) = "" :: segments path := by
  simp [segments, splitSlashes]

theorem segments_intercalate (hne : parts ≠ []) (h : ∀ s ∈ parts, '/' ∉ s.toList) :
    segments ("/".intercalate parts) = parts := by
  rw [segments, String.toList_intercalate]
  have hsplit := splitSlashes_intercalate (l := parts.map String.toList) (by simpa using hne) (by simpa using h)
  rw [show "/".toList = ['/'] from rfl, hsplit, map_map]
  simp [Function.comp_def]

theorem startsAtRoot_intercalate (h : ∀ s ∈ parts, s ≠ "" ∧ '/' ∉ s.toList) :
    startsAtRoot ("/".intercalate parts) = false := by
  cases parts with
  | nil => rfl
  | cons s parts =>
    obtain ⟨hne, hs⟩ := (forall_mem_cons.mp h).1
    obtain ⟨c, l, hc⟩ := exists_cons_of_ne_nil (mt String.toList_eq_nil_iff.mp hne)
    have hslash : c ≠ '/' := fun heq => hs (by simp [hc, heq])
    rw [startsAtRoot, String.toList_intercalate, map_cons, hc]
    cases parts <;> simpa [intercalate] using hslash

/-- A path that is written out of segments in normal form. -/
def written (absolute : Bool) (done : List String) : String :=
  if absolute then "/" ++ "/".intercalate done.reverse
  else if done = [] then "." else "/".intercalate done.reverse

theorem intercalate_eq_empty_iff (h : ∀ s ∈ parts, s ≠ "") : "/".intercalate parts = "" ↔ parts = [] := by
  refine ⟨fun heq => ?_, fun heq => heq ▸ rfl⟩
  have hlist := congrArg String.toList heq
  rw [String.toList_intercalate] at hlist
  rcases parts with _ | ⟨s, _ | ⟨t, parts⟩⟩
  · rfl
  · exact absurd (by simpa [intercalate] using hlist) (h s mem_cons_self)
  · simp [intercalate] at hlist

theorem normal_of_path (path : String) (start : List String) :
    Normal (startsAtRoot path) ((segments path).foldl (descend (startsAtRoot path)) []) ∧
      ((segments path).foldl (descend (startsAtRoot path)) []).foldr (fun s place => follow place s)
        (if startsAtRoot path then [] else start) = resolve start path :=
  normal_foldl (fun _ hs => slash_notMem_of_mem_segments hs) .root fun h => if_pos h

theorem normalizePath_eq (path : String) : normalizePath path =
    written (startsAtRoot path) ((segments path).foldl (descend (startsAtRoot path)) []) := by
  have hnormal := (normal_of_path path []).1
  rw [normalizePath, written]
  simp only [intercalate_eq_empty_iff fun s hs => (hnormal.proper s (mem_reverse.mp hs)).1,
    reverse_eq_nil_iff]

theorem foldl_written {α : Type} (f : α → String → α) (hemp : ∀ a, f a "" = a) (hdot : ∀ a, f a "." = a)
    (h : Normal absolute done) (a : α) :
    (segments (written absolute done)).foldl f a = done.reverse.foldl f a := by
  have hslash : ∀ s ∈ done.reverse, '/' ∉ s.toList := fun s hs => (h.proper s (mem_reverse.mp hs)).2
  by_cases hnil : done = []
  · subst hnil
    cases absolute <;> simp [written, segments, splitSlashes, hemp, hdot]
  · have hne : done.reverse ≠ [] := by simpa using hnil
    cases absolute with
    | false => rw [written, if_neg (by decide), if_neg hnil, segments_intercalate hne hslash]
    | true =>
      rw [written, if_pos rfl, segments_slash, foldl_cons, hemp, segments_intercalate hne hslash]

theorem startsAtRoot_written (h : Normal absolute done) : startsAtRoot (written absolute done) = absolute := by
  cases absolute with
  | true => simp [written, startsAtRoot]
  | false =>
    rw [written, if_neg (by decide)]
    split_ifs
    · rfl
    · exact startsAtRoot_intercalate fun s hs => h.proper s (mem_reverse.mp hs)

/-- **The normal form of a path.** It names the same place from every directory, is written out of
segments in normal form, starts with a slash if the path does, and is its own normal form. -/
theorem normalizePath_canonical (path : String) :
    (∀ start, resolve start (normalizePath path) = resolve start path) ∧
    (∃ done, Normal (startsAtRoot path) done ∧ normalizePath path = written (startsAtRoot path) done) ∧
    startsAtRoot (normalizePath path) = startsAtRoot path ∧
    normalizePath (normalizePath path) = normalizePath path := by
  set absolute := startsAtRoot path with habs
  set done := (segments path).foldl (descend absolute) [] with hdone
  have heq : normalizePath path = written absolute done := normalizePath_eq path
  have hnormal : Normal absolute done := (normal_of_path path []).1
  have hroot : startsAtRoot (written absolute done) = absolute := startsAtRoot_written hnormal
  refine ⟨fun start => ?_, ⟨done, hnormal, heq⟩, heq ▸ hroot, ?_⟩
  · rw [resolve, heq, hroot, foldl_written _ (fun _ => rfl) (fun _ => rfl) hnormal, foldl_reverse]
    exact (normal_of_path path start).2
  · rw [heq, normalizePath_eq, hroot, foldl_written _ (fun _ => descend_of_none rfl)
      (fun _ => descend_of_none rfl) hnormal, hnormal.foldl_descend]

end Stencil.Stylesheet
