import Mathlib
import Stencil.Stylesheet.Url

/-!
# Urls of stylesheets from other hosts

A relative `url()` value is joined to the directory of the stylesheet's own url and the whole is brought
to the normal form of a path. The two slashes in front of a host are no exception: a normal form never
has one slash after the other (`slashes_normalizePath`), so what is rewritten in a stylesheet from
another host **never begins with scheme and host** (`rebase_remote`).
-/

namespace Stencil

open List

namespace Text

variable {s a : List Char} {l : List (List Char)}

theorem splitSlashes_ne_nil (a : List Char) : splitSlashes a ≠ [] := by
  fun_cases splitSlashes a <;> simp_all

theorem splitSlashes_append (a b : List Char) :
    splitSlashes (a ++ '/' :: b) = splitSlashes a ++ splitSlashes b := by
  induction a with
  | nil => simp [splitSlashes]
  | cons c a ih =>
    obtain ⟨first, others, ha⟩ := exists_cons_of_ne_nil (splitSlashes_ne_nil a)
    simp only [cons_append, splitSlashes, ih, ha]
    split_ifs <;> rfl

theorem splitSlashes_of_notMem (h : '/' ∉ a) : splitSlashes a = [a] := by
  induction a with
  | nil => rfl
  | cons c a ih =>
    rw [mem_cons, not_or] at h
    rw [splitSlashes, if_neg (Ne.symm h.1), ih h.2]

theorem notMem_of_mem_splitSlashes (h : s ∈ splitSlashes a) : '/' ∉ s := by
  induction a generalizing s with
  | nil => simp_all [splitSlashes]
  | cons c a ih =>
    obtain ⟨first, others, ha⟩ := exists_cons_of_ne_nil (splitSlashes_ne_nil a)
    rw [ha] at ih
    simp only [splitSlashes, ha] at h
    split_ifs at h with hc
    · rcases mem_cons.mp h with rfl | h
      · exact not_mem_nil
      · exact ih h
    · rcases mem_cons.mp h with rfl | h
      · simpa [Ne.symm hc] using ih mem_cons_self
      · exact ih (mem_cons_of_mem _ h)

theorem splitSlashes_intercalate (hne : l ≠ []) (h : ∀ s ∈ l, '/' ∉ s) :
    splitSlashes (['/'].intercalate l) = l := by
  induction l with
  | nil => exact absurd rfl hne
  | cons s l ih =>
    obtain ⟨hs, hl⟩ := forall_mem_cons.mp h
    cases l with
    | nil => simpa [intercalate] using splitSlashes_of_notMem hs
    | cons t l =>
      rw [intercalate_cons_cons, append_assoc]
      have hcut := splitSlashes_append s (['/'].intercalate (t :: l))
      rwa [splitSlashes_of_notMem hs, ih (cons_ne_nil _ _) hl] at hcut

theorem joined_ne_slashes {lead u v : List Char} (h : ∀ s ∈ l, s ≠ [] ∧ '/' ∉ s)
    (hlead : lead = [] ∨ lead = ['/']) : lead ++ ['/'].intercalate l ≠ u ++ '/' :: '/' :: v := by
  intro heq
  by_cases hemp : l = []
  · subst hemp
    have hlen := congrArg length heq
    rcases hlead with rfl | rfl <;> simp at hlen
    omega
  have hsplit := splitSlashes_intercalate hemp fun s hs => (h s hs).2
  obtain ⟨first, others, hu⟩ := exists_cons_of_ne_nil (splitSlashes_ne_nil u)
  have hcut := congrArg splitSlashes heq
  rw [splitSlashes_append, splitSlashes, if_pos rfl, hu] at hcut
  refine (h [] ?_).1 rfl
  rcases hlead with rfl | rfl
  · rw [nil_append, hsplit] at hcut
    simp [hcut]
  · rw [singleton_append, splitSlashes, if_pos rfl, hsplit] at hcut
    simp [(cons_eq_cons.mp hcut).2]

theorem dropEndWhile_append_cons {q : Char → Bool} {c : Char} (hc : q c = false) (a b : List Char) :
    dropEndWhile q (a ++ c :: b) = a ++ c :: dropEndWhile q b := by
  have hback : dropWhile q (b.reverse ++ c :: a.reverse) = dropWhile q b.reverse ++ c :: a.reverse := by
    rw [dropWhile_append]
    split_ifs with hemp
    · rw [isEmpty_iff.mp hemp, dropWhile_cons_of_neg (by rw [hc]; simp)]
      rfl
    · rfl
  rw [dropEndWhile, reverse_append, reverse_cons, append_assoc, singleton_append, hback, reverse_append,
    reverse_cons, reverse_reverse, append_assoc]
  rfl

end Text

namespace Stylesheet

open Text

variable {path segment : String} {done : List String} {absolute : Bool}

theorem descend_of_none (h : (segment = "" || segment = ".") = true) :
    descend absolute done segment = done := by
  unfold descend
  rw [if_pos h]

theorem descend_of_name (h : segment ∉ ["", ".", ".."]) :
    descend absolute done segment = segment :: done := by
  simp only [mem_cons, not_mem_nil, or_false, not_or] at h
  simp [descend, h]

structure Proper (segment : String) : Prop where
  ne_empty : segment ≠ ""
  slash_notMem : '/' ∉ segment.toList

theorem descend_proper (hdone : ∀ s ∈ done, Proper s) (hs : '/' ∉ segment.toList) :
    ∀ s ∈ descend absolute done segment, Proper s := by
  have hup : Proper ".." := ⟨by decide, by decide⟩
  by_cases hnone : (segment = "" || segment = ".") = true
  · rwa [descend_of_none hnone]
  by_cases hsegment : segment = ".."
  · subst hsegment
    cases done with
    | nil => cases absolute <;> simp [descend, hup]
    | cons last rest =>
      have hcases : descend absolute (last :: rest) ".." = ".." :: last :: rest ∨
          descend absolute (last :: rest) ".." = rest := by
        by_cases hlast : last = ".." <;> simp [descend, hlast]
      rcases hcases with h | h <;> rw [h]
      · exact forall_mem_cons.mpr ⟨hup, hdone⟩
      · exact (forall_mem_cons.mp hdone).2
  · rw [descend_of_name (by simp_all)]
    exact forall_mem_cons.mpr ⟨⟨fun h => hnone (by simp [h]), hs⟩, hdone⟩

theorem proper_of_mem_foldl (h : segment ∈ (segments path).foldl (descend absolute) []) :
    Proper segment := by
  refine foldlRecOn _ _ (motive := fun done => ∀ s ∈ done, Proper s) (by simp) (fun done hdone s hs => ?_)
    segment h
  obtain ⟨t, ht, rfl⟩ := mem_map.mp hs
  exact descend_proper hdone (by simpa using notMem_of_mem_splitSlashes ht)

theorem slashes_normalizePath (path : String) : ¬ ['/', '/'] <:+: (normalizePath path).toList := by
  set parts := ((segments path).foldl (descend (startsAtRoot path)) []).reverse with hparts
  have hproper : ∀ s ∈ parts.map String.toList, s ≠ [] ∧ '/' ∉ s := by
    intro s hs
    obtain ⟨t, ht, rfl⟩ := mem_map.mp hs
    have ht' := proper_of_mem_foldl (mem_reverse.mp (hparts ▸ ht))
    exact ⟨fun h => ht'.ne_empty (String.toList_eq_nil_iff.mp h), ht'.slash_notMem⟩
  rintro ⟨u, v, h⟩
  rw [append_assoc, normalizePath] at h
  simp only [← hparts] at h
  split_ifs at h
  · rw [String.toList_append, String.toList_intercalate] at h
    exact joined_ne_slashes hproper (.inr rfl) h.symm
  · have hlen := congrArg length h
    simp at hlen
    omega
  · rw [String.toList_intercalate] at h
    exact joined_ne_slashes hproper (.inl rfl) h.symm

/-- Whether segments, taken one after the other, never lead above the directory that lies `depth`
levels up. -/
def staysWithin : (depth : Nat) → List String → Bool
  | _, [] => true
  | depth, segment :: more =>
    if segment = "" || segment = "." then staysWithin depth more
    else if segment = ".." then depth != 0 && staysWithin (depth - 1) more
    else staysWithin (depth + 1) more

theorem foldl_descend_append (above : List String) {segs done : List String}
    (hdone : ∀ s ∈ done, s ≠ "..") (h : staysWithin done.length segs = true) :
    segs.foldl (descend absolute) (done ++ above) = segs.foldl (descend true) done ++ above := by
  induction segs generalizing done with
  | nil => rfl
  | cons segment segs ih =>
    rw [staysWithin] at h
    rw [foldl_cons, foldl_cons]
    split_ifs at h with hnone hup
    · rw [descend_of_none hnone, descend_of_none hnone]
      exact ih hdone h
    · subst hup
      rw [Bool.and_eq_true, bne_iff_ne] at h
      cases done with
      | nil => exact absurd rfl h.1
      | cons last rest =>
        obtain ⟨hlast, hrest⟩ := forall_mem_cons.mp hdone
        simp only [descend, cons_append, if_neg hlast]
        exact ih hrest h.2
    · have hname : segment ∉ ["", ".", ".."] := by simp_all
      rw [descend_of_name hname, descend_of_name hname]
      exact ih (forall_mem_cons.mpr ⟨hup, hdone⟩) h

def remoteSchemes : List String := ["http://", "https://", "//"]

/-- A value in a stylesheet that is found at a url with scheme, host and path. However many segments
of whatever kind it has, what it is rewritten to does not begin with scheme and host. Unless it
leads above the root of the host, it begins with these but for one slash. -/
theorem rebase_remote {scheme host : String} (path value : String) (hscheme : scheme ∈ remoteSchemes)
    (hhost : '/' ∉ host.toList) (hname : host ∉ ["", ".", ".."]) :
    ¬ (scheme ++ host ++ "/").toList <+: (rebase (scheme ++ host ++ "/" ++ path) value).toList ∧
    (staysWithin 0 (segments (directory path ++ value)) = true →
      rebase (scheme ++ host ++ "/" ++ path) value = String.ofList scheme.toList.dropLast ++
        "/".intercalate (host ::
          ((segments (directory path ++ value)).foldl (descend true) []).reverse)) := by
  constructor
  · intro hprefix
    have hslashes : ['/', '/'] <:+: scheme.toList := by
      simp only [remoteSchemes, mem_cons, not_mem_nil, or_false] at hscheme
      rcases hscheme with rfl | rfl | rfl <;> decide
    refine slashes_normalizePath _ (hslashes.trans (IsInfix.trans ?_ hprefix.isInfix))
    rw [String.append_assoc, String.toList_append]
    exact (prefix_append _ _).isInfix
  · intro hstays
    have hjoined : (directory (scheme ++ host ++ "/" ++ path) ++ value).toList =
        (scheme ++ host).toList ++ '/' :: (directory path ++ value).toList := by
      have hdir := dropEndWhile_append_cons (q := (· != '/')) (c := '/') rfl (scheme ++ host).toList path.toList
      simp only [directory, String.toList_append, String.toList_ofList] at hdir ⊢
      rw [show "/".toList = ['/'] from rfl, append_assoc (scheme.toList ++ host.toList), singleton_append,
        hdir, append_assoc, cons_append]
    have hsegments : segments (directory (scheme ++ host ++ "/" ++ path) ++ value) =
        segments (scheme ++ host) ++ segments (directory path ++ value) := by
      rw [segments, hjoined, splitSlashes_append, map_append]
      rfl
    obtain ⟨front, hfront, rfl⟩ : ∃ front ∈ ["http:", "https:", ""], scheme = front ++ "//" := by
      simp only [remoteSchemes, mem_cons, not_mem_nil, or_false] at hscheme
      rcases hscheme with rfl | rfl | rfl <;> simp
    have hstart : segments (front ++ "//" ++ host) = [front, "", host] := by
      have hslash : '/' ∉ front.toList := by
        simp only [mem_cons, not_mem_nil, or_false] at hfront
        rcases hfront with rfl | rfl | rfl <;> decide
      have hcut := splitSlashes_append front.toList ('/' :: host.toList)
      rw [splitSlashes, if_pos rfl, splitSlashes_of_notMem hslash, splitSlashes_of_notMem hhost] at hcut
      rw [segments, String.toList_append, String.toList_append, append_assoc]
      exact (congrArg (map String.ofList) hcut).trans (by simp)
    have hroot : startsAtRoot (directory (front ++ "//" ++ host ++ "/" ++ path) ++ value) =
        decide (front = "") := by
      simp only [mem_cons, not_mem_nil, or_false] at hfront
      rw [startsAtRoot, hjoined]
      rcases hfront with rfl | rfl | rfl <;> simp
    have habove : [front, "", host].foldl (descend (decide (front = ""))) [] =
        if front = "" then [host] else [host, front] := by
      have hmiddle : ∀ done, descend (decide (front = "")) done "" = done := fun _ => descend_of_none rfl
      rw [foldl_cons, foldl_cons, foldl_cons, foldl_nil, hmiddle, descend_of_name hname]
      simp only [mem_cons, not_mem_nil, or_false] at hfront
      rcases hfront with rfl | rfl | rfl <;> rfl
    have hlast : String.ofList (front ++ "//").toList.dropLast = front ++ "/" := by
      simp only [mem_cons, not_mem_nil, or_false] at hfront
      rcases hfront with rfl | rfl | rfl <;> decide
    have hfold : ∀ above : List String, (segments (directory path ++ value)).foldl
        (descend (decide (front = ""))) above =
          (segments (directory path ++ value)).foldl (descend true) [] ++ above :=
      fun above => foldl_descend_append above (fun s hs => absurd hs not_mem_nil) hstays
    rw [rebase, normalizePath, hroot, hsegments, hstart, foldl_append, habove, hlast, hfold]
    by_cases hempty : front = ""
    · simp [hempty]
    · simp [hempty, String.intercalate_cons_cons, String.append_assoc]

/-- One step up keeps the host with one slash less, and two steps up lose it. -/
theorem rebase_remote_cdn :
    "http://" ∈ remoteSchemes ∧ '/' ∉ "cdn.org".toList ∧ "cdn.org" ∉ ["", ".", ".."] ∧
    staysWithin 0 (segments (directory "css/a.css" ++ "../x.png")) = true ∧
    rebase ("http://" ++ "cdn.org" ++ "/" ++ "css/a.css") "../x.png" = "http:/cdn.org/x.png" ∧
    ¬ ("http://" ++ "cdn.org" ++ "/").toList <+:
      (rebase ("http://" ++ "cdn.org" ++ "/" ++ "css/a.css") "../../x.png").toList := by
  have hhost : '/' ∉ "cdn.org".toList := by decide
  have hname : "cdn.org" ∉ ["", ".", ".."] := by decide
  have hstays : staysWithin 0 (segments (directory "css/a.css" ++ "../x.png")) = true := by
    decide +kernel
  refine ⟨mem_cons_self, hhost, hname, hstays, ?_, ?_⟩
  · exact ((rebase_remote "css/a.css" "../x.png" mem_cons_self hhost hname).2 hstays).trans
      (by decide +kernel)
  · exact (rebase_remote "css/a.css" "../../x.png" mem_cons_self hhost hname).1

end Stylesheet

end Stencil
