import Stencil.Proofs.Script.Compiled

/-!
# Seams of a compiled script

Two tokens that follow each other in a list of a script may be kept apart in the source by blanks and
by comments. A comment leaves nothing, the blanks around an operator go with it, and of the other
blanks stays what `gap` says. So **two words are apart in the compiled script exactly if there is a
blank outside of comments between them, and two plus or two minus signs exactly if there is a line
break** (`blanks_between_tokens`).
-/

namespace Stencil

open List String

variable {kind : Kind} {m : List (Option NodeId)}

namespace Script

open Document

variable {d a : Document} {p : Place} {s t u v : List Char} {c k : Char} {x y : NodeId}
  {run : List NodeId}

/-! ### Marks -/

def firstMark (s : List Char) : Option Char := (s.dropWhile Text.isBlank).head?

def lastMark (s : List Char) : Option Char := firstMark s.reverse

theorem mem_of_firstMark (h : firstMark s = some k) : k ∈ s ∧ Text.isBlank k = false :=
  ⟨(dropWhile_sublist _).subset (mem_of_head? h), Text.head?_dropWhile s k h⟩

theorem mem_of_lastMark (h : lastMark s = some k) : k ∈ s ∧ Text.isBlank k = false :=
  (mem_of_firstMark h).imp_left List.mem_reverse.mp

theorem firstMark_append_cons (hc : Text.isBlank c = false) (h : firstMark (u ++ c :: v) = some k) :
    k ∈ u ∧ Text.isBlank k = false ∨ k = c := by
  have hsplit : firstMark (u ++ c :: v) = (firstMark u).or (some c) := by
    rw [firstMark, dropWhile_append]
    split_ifs with hu
    · rw [dropWhile_cons_of_neg (by rw [hc]; decide), firstMark, isEmpty_iff.mp hu]
      rfl
    · rw [head?_append, firstMark, head?_cons]
  rw [hsplit, Option.or_eq_some_iff] at h
  rcases h with h | ⟨-, h⟩
  · exact .inl (mem_of_firstMark h)
  · exact .inr (Option.some.inj h).symm

theorem firstMark_of_blanks (hu : ∀ c ∈ u, Text.isBlank c = true) (hc : Text.isBlank c = false)
    (h : firstMark (u ++ c :: v) = some k) : k = c := by
  rcases firstMark_append_cons hc h with ⟨hk, hblank⟩ | hk
  · rw [hu k hk] at hblank
    cases hblank
  · exact hk

theorem lastMark_append_cons (hc : Text.isBlank c = false) (h : lastMark (u ++ c :: v) = some k) :
    k ∈ v ∧ Text.isBlank k = false ∨ k = c := by
  rw [lastMark, List.reverse_append, List.reverse_cons, List.append_assoc] at h
  exact (firstMark_append_cons hc h).imp_left fun hk => hk.imp_left List.mem_reverse.mp

theorem lastMark_of_blanks (hv : ∀ c ∈ v, Text.isBlank c = true) (hc : Text.isBlank c = false)
    (h : lastMark (u ++ c :: v) = some k) : k = c := by
  rcases lastMark_append_cons hc h with ⟨hk, hblank⟩ | hk
  · rw [hv k hk] at hblank
    cases hblank
  · exact hk

theorem isBlank_of_isPadding (h : isPadding c = true) : Text.isBlank c = true := by
  rcases Bool.or_eq_true_iff.mp h with h | h <;> rw [beq_iff_eq.mp h] <;> decide

theorem trim_of_blanks (hu : ∀ c ∈ u, Text.isBlank c = true) (hc : Text.isBlank c = false)
    (hv : ∀ c ∈ v, Text.isBlank c = true) :
    Text.trim (String.ofList (u ++ c :: v)) = String.ofList [c] := by
  have hstart : (u ++ c :: v).dropWhile Text.isBlank = c :: v := by
    rw [dropWhile_append_of_pos hu, dropWhile_cons_of_neg (by rw [hc]; decide)]
  have hend : Text.dropEndWhile Text.isBlank (c :: v) = [c] := by
    rw [Text.dropEndWhile, List.reverse_cons,
      dropWhile_append_of_pos fun x hx => hv x (List.mem_reverse.mp hx),
      dropWhile_cons_of_neg (by rw [hc]; decide)]
    rfl
  rw [Text.trim, toList_ofList, hstart, hend]

/-! ### What marks say about tokens -/

/-- What can be said about a token that starts or ends with a mark. -/
structure Marked (d : Document) (x : NodeId) (k : Char) : Prop where
  word : isNameChar k = true → isPunctuation (d.kind x) = false
  sign : k = '+' ∨ k = '-' → d.kind x = .operator ∧ operatorText d x = String.ofList [k]

theorem Marked.of_not_sign (hk : isPunctuation (d.kind x) = true → isNameChar k = false)
    (hsign : k ∉ ['+', '-']) : Marked d x k where
  word hname := by
    by_contra hpunct
    rw [hk (by simpa using hpunct)] at hname
    cases hname
  sign h := absurd (by simpa using h) hsign

theorem not_sign_of_isNameChar (h : isNameChar k = true) : k ∉ ['+', '-'] := by
  intro hk
  simp only [mem_cons, not_mem_nil, or_false] at hk
  rcases hk with rfl | rfl <;> exact absurd h (by decide)

theorem operatorChars_marks (h : c ∈ operatorChars) :
    Text.isBlank c = false ∧ isNameChar c = false := by
  have hall : (operatorChars.all fun c => !Text.isBlank c && !isNameChar c) = true := by
    decide +kernel
  simpa using all_eq_true.mp hall c h

theorem isNameChar_of_keyword {w : String} (hw : w ∈ keywords) (hc : c ∈ w.toList) :
    isNameChar c = true := by
  have hall : (keywords.all fun w => w.toList.all isNameChar) = true := by decide +kernel
  exact all_eq_true.mp (all_eq_true.mp hall w hw) c hc

/-- A character that a text starts or ends with, blanks aside. -/
def Edge (s : List Char) (k : Char) : Prop := firstMark s = some k ∨ lastMark s = some k

theorem Edge.mem (h : Edge s k) : k ∈ s ∧ Text.isBlank k = false :=
  h.elim mem_of_firstMark mem_of_lastMark

theorem Edge.eq_of_blanks (h : Edge (u ++ c :: v) k) (hu : ∀ c ∈ u, Text.isBlank c = true)
    (hc : Text.isBlank c = false) (hv : ∀ c ∈ v, Text.isBlank c = true) : k = c :=
  h.elim (firstMark_of_blanks hu hc) (lastMark_of_blanks hv hc)

theorem Worded.marked (hw : Worded (d.kind x) s) (hb : d.branches x = [textBranch s])
    (h : Edge s k) : Marked d x k := by
  obtain ⟨hmem, hblank⟩ := h.mem
  generalize hkind : d.kind x = kind at hw
  -- words consist of characters that are no signs
  have hword : isPunctuation kind = false → k ∉ ['+', '-'] → Marked d x k := fun hk =>
    .of_not_sign fun hpunct => by rw [hkind, hk] at hpunct; cases hpunct
  cases hw with
  | keyword hs =>
    refine hword rfl (not_sign_of_isNameChar (isNameChar_of_keyword hs ?_))
    rwa [toList_ofList]
  | identifier hc hs =>
    refine hword rfl (not_sign_of_isNameChar ?_)
    rcases mem_cons.mp hmem with rfl | hmem
    · simp only [isNameStart, isNameChar, Char.isAlphanum, Bool.or_eq_true] at hc ⊢
      tauto
    · exact hs k hmem
  | number hc hs =>
    refine hword rfl fun hk => ?_
    simp only [mem_cons, not_mem_nil, or_false] at hk
    rcases mem_cons.mp hmem with rfl | hmem
    · rcases hk with rfl | rfl <;> exact absurd hc (by decide)
    · rcases hk with rfl | rfl <;> exact absurd (hs _ hmem) (by decide)
  | @operator before after c hbef hc hafter =>
    obtain ⟨hcblank, hname⟩ := operatorChars_marks hc
    have hbef' := fun x hx => isBlank_of_isPadding (hbef x hx)
    have hafter' := fun x hx => isBlank_of_isPadding (hafter x hx)
    obtain rfl := h.eq_of_blanks hbef' hcblank hafter'
    refine ⟨fun hk => ?_, fun _ => ⟨hkind, ?_⟩⟩
    · rw [hname] at hk
      cases hk
    · rw [operatorText, ownText_of_branches hb, trim_of_blanks hbef' hcblank hafter']
  | blank _ hs =>
    rw [hs k hmem] at hblank
    cases hblank
  | @regex before body flags hbef hflags =>
    refine hword rfl fun hk => ?_
    simp only [mem_cons, not_mem_nil, or_false] at hk
    rcases h with h | h
    · obtain rfl := firstMark_of_blanks hbef (by decide) h
      rcases hk with hk | hk <;> exact absurd hk (by decide)
    · rw [← List.cons_append, ← List.append_assoc] at h
      rcases lastMark_append_cons (by decide) h with ⟨hflag, -⟩ | rfl
      · rcases hk with rfl | rfl <;> exact absurd (hflags _ hflag) (by decide)
      · rcases hk with hk | hk <;> exact absurd hk (by decide)

def enclosures : List Char := ['"', '\'', '(', ')', '[', ']', '\x7b', '\x7d']

theorem enclosures_marks (h : k ∈ enclosures) :
    Text.isBlank k = false ∧ isNameChar k = false ∧ k ∉ ['+', '-'] := by
  have hall : (enclosures.all fun k => !Text.isBlank k && !isNameChar k && k != '+' && k != '-') =
      true := by
    decide +kernel
  simpa [and_assoc] using all_eq_true.mp hall k h

theorem Marked.of_mem_enclosures (h : k ∈ enclosures) : Marked d x k :=
  .of_not_sign (fun _ => (enclosures_marks h).2.1) (enclosures_marks h).2.2

theorem exists_opener (h : isBracketed kind = true) : ∃ c ∈ enclosures, kind.opener.toList = [c] := by
  unfold isBracketed at h
  split at h
  case h_1 => exact ⟨'\x7b', by decide, rfl⟩
  case h_2 => exact ⟨'(', by decide, rfl⟩
  case h_3 => exact ⟨'[', by decide, rfl⟩
  case h_4 => cases h

/-- **What the edges of a token say.** -/
theorem Reads.marked (h : Reads d p s [some x]) (hk : Edge s k) : Marked d x k := by
  generalize hl : [some x] = l at h
  cases h with
  | nil => cases hl
  | comment => cases hl
  | word hw _ hb hnil =>
    cases hl
    cases hnil
    rw [append_nil] at hk
    exact hw.marked hb hk
  | @quoted _ written kept s t quote other _ _ hq _ hs _ _ hnil =>
    cases hl
    cases hnil
    rw [append_nil, hs] at hk
    have hmem : quote ∈ enclosures := by
      generalize d.kind x = kind at hq
      cases hq <;> decide
    have hblank := (enclosures_marks hmem).1
    have heq : k = quote := by
      rcases hk with hk | hk
      · exact firstMark_of_blanks (u := []) (by simp) hblank hk
      · exact lastMark_of_blanks (u := quote :: written) (v := []) (by simp) hblank hk
    exact .of_mem_enclosures (heq ▸ hmem)
  | @bracketed _ opening inner closing s t _ _ m ho hc hs _ _ _ hnil =>
    cases hl
    cases hnil
    rw [append_nil, hs] at hk
    rcases hk with hk | hk
    · obtain ⟨before, after, rfl, hbef, -⟩ := ho.eq
      obtain ⟨c, hmem, heq⟩ := exists_opener ho.bracketed
      rw [heq, List.append_assoc, List.append_assoc] at hk
      obtain rfl := firstMark_of_blanks hbef (enclosures_marks hmem).1 hk
      exact .of_mem_enclosures hmem
    · obtain ⟨before, bracket, rfl, -, hbracket⟩ := hc
      rw [← List.append_assoc, ← List.append_assoc] at hk
      have hmem : bracket ∈ enclosures :=
        (show ['\x7d', ')', ']'] ⊆ enclosures by decide) hbracket
      obtain rfl := lastMark_of_blanks (v := []) (by simp) (enclosures_marks hmem).1 hk
      exact .of_mem_enclosures hmem

theorem isPunctuation_of_isBracketed (h : isBracketed kind = true) : isPunctuation kind = true := by
  unfold isBracketed at h
  split at h
  case h_4 => cases h
  all_goals rfl

theorem Reads.eq_ownText (h : Reads d p s [some x]) (hk : isPunctuation (d.kind x) = false) :
    s = (d.ownText x).toList := by
  generalize hl : [some x] = l at h
  cases h with
  | nil => cases hl
  | comment => cases hl
  | word _ _ hb hnil =>
    cases hl
    cases hnil
    rw [ownText_of_branches hb, toList_ofList, append_nil]
  | quoted hq =>
    cases hl
    generalize d.kind x = kind at hq hk
    cases hq <;> cases hk
  | bracketed ho =>
    cases hl
    rw [isPunctuation_of_isBracketed ho.bracketed] at hk
    cases hk

/-! ### What is left between tokens -/

abbrev hasBlank (s : String) : Prop := ∃ c ∈ s.toList, Text.isBlank c = true

theorem hasBlank_ite {q : Prop} [Decidable q] : hasBlank (if q then "\n" else " ") := by
  split_ifs
  · exact ⟨'\n', mem_cons_self, by decide⟩
  · exact ⟨' ', mem_cons_self, by decide⟩

theorem not_hasBlank_empty : ¬ hasBlank "" := by
  rintro ⟨c, hc, -⟩
  cases hc

theorem absorbsLineBreak_of_not_punctuation (h : isPunctuation (d.kind x) = false) :
    absorbsLineBreak d (.node x) = false := by
  have hk : d.kind x ≠ .operator := fun hk => by
    rw [hk] at h
    cases h
  simp [absorbsLineBreak, hk]

theorem hasBlank_gap_of_words (hx : isPunctuation (d.kind x) = false)
    (hy : isPunctuation (d.kind y) = false) : hasBlank (gap d x run y) ↔ run ≠ [] := by
  rw [gap]
  split_ifs with hrun
  · simp [hrun, not_hasBlank_empty]
  · have hkept : keptBlank d true (run.any (hasLineBreak d)) (some (.node x)) (some (.node y)) =
        if run.any (hasLineBreak d) then "\n" else " " := by
      simp [keptBlank, isNodeOf, hx, hy, absorbsLineBreak_of_not_punctuation]
    rw [hkept]
    exact iff_of_true hasBlank_ite hrun

theorem absorbsLineBreak_of_sign (hk : k = '+' ∨ k = '-')
    (h : operatorText d x = String.ofList [k]) : absorbsLineBreak d (.node x) = false := by
  rw [absorbsLineBreak, h]
  rcases hk with rfl | rfl <;> simp

theorem hasBlank_gap_of_signs (hk : k = '+' ∨ k = '-')
    (hx : d.kind x = .operator ∧ operatorText d x = String.ofList [k])
    (hy : d.kind y = .operator ∧ operatorText d y = String.ofList [k]) :
    hasBlank (gap d x run y) ↔ ∃ z ∈ run, hasLineBreak d z = true := by
  have hkept : gap d x run y = if run.any (hasLineBreak d) then "\n" else "" := by
    rw [gap]
    split_ifs with hrun <;> simp_all [keptBlank, isNodeOf, isPunctuation, absorbsLineBreak_of_sign hk]
  rw [hkept, ← any_eq_true]
  split_ifs with hbreak
  · exact iff_of_true ⟨'\n', mem_cons_self, by decide⟩ hbreak
  · exact iff_of_false not_hasBlank_empty hbreak

/-! ### Tokens that follow each other -/

/-- Two tokens that follow each other in a list, and the blanks between them. -/
structure Follows (d : Document) (x : NodeId) (run : List NodeId) (y : NodeId) : Prop where
  list : ∃ p pre post, Reaches d.refs root p ∧ d.childNodes p = pre ++ x :: (run ++ y :: post)
  first : d.kind x ≠ .scriptSpace
  second : d.kind y ≠ .scriptSpace
  blanks : ∀ z ∈ run, d.kind z = .scriptSpace

/-- Two tokens with texts `s` and `t` in the source: nothing but comments and the given blanks is
between them. -/
def ReadApart (d : Document) (path source : String) (x : NodeId) (run : List NodeId) (y : NodeId)
    (s t : List Char) : Prop :=
  ∃ left between right items, source.toList = left ++ (s ++ (between ++ (t ++ right))) ∧
    Reads d ((Place.startOf path).advance left) s [some x] ∧
    Reads d ((Place.startOf path).advance (left ++ s)) between items ∧ items.reduceOption = run ∧
    Reads d ((Place.startOf path).advance (left ++ s ++ between)) t [some y]

/-- Two tokens stand in the output with a text between them. -/
def WrittenApart (a : Document) (x : NodeId) (between : String) (y : NodeId) : Prop :=
  ∃ before after, a.Stands (a.branch root 0) before x ∧
    a.Stands (a.branch root 0) (before ++ a.sourceOf x ++ between) y ∧
    a.output = before ++ a.sourceOf x ++ between ++ a.sourceOf y ++ after

theorem exists_of_reduceOption {l : List NodeId}
    (h : m.reduceOption = x :: l) : ∃ comments rest, m = comments ++ some x :: rest ∧
      comments.reduceOption = [] ∧ rest.reduceOption = l := by
  obtain ⟨comments, f, rest, rfl, hnone, hf, hrest⟩ := filterMap_eq_cons_iff.mp h
  obtain rfl : f = some x := hf
  exact ⟨comments, rest, rfl, filterMap_eq_nil_iff.mpr hnone, hrest⟩

theorem Reads.cut {pre post : List NodeId} (h : Reads d p s m)
    (hm : m.reduceOption = pre ++ x :: (run ++ y :: post)) :
    ∃ left t between u right items, s = left ++ (t ++ (between ++ (u ++ right))) ∧
      Reads d (p.advance left) t [some x] ∧ Reads d (p.advance (left ++ t)) between items ∧
      items.reduceOption = run ∧ Reads d (p.advance (left ++ t ++ between)) u [some y] := by
  obtain ⟨m1, m2, rfl, -, hm2⟩ := (reduceOption_eq_append_iff _ _ _).mp hm
  obtain ⟨c1, m3, rfl, -, hm3⟩ := exists_of_reduceOption hm2
  obtain ⟨m4, m5, rfl, hm4, hm5⟩ := (reduceOption_eq_append_iff _ _ _).mp hm3
  obtain ⟨c2, m6, rfl, hc2, -⟩ := exists_of_reduceOption hm5
  have hlist : m1 ++ (c1 ++ some x :: (m4 ++ (c2 ++ some y :: m6))) =
      (m1 ++ c1) ++ ([some x] ++ ((m4 ++ c2) ++ ([some y] ++ m6))) := by simp
  rw [hlist] at h
  obtain ⟨left, _, rfl, -, h1⟩ := h.split
  obtain ⟨t, _, rfl, ht, h2⟩ := h1.split
  obtain ⟨between, _, rfl, hbetween, h3⟩ := h2.split
  obtain ⟨u, right, rfl, hu, -⟩ := h3.split
  refine ⟨left, t, between, u, right, m4 ++ c2, rfl, ht, ?_, ?_, ?_⟩
  · rwa [Place.advance_append]
  · rw [reduceOption_append, hm4, hc2, append_nil]
  · rwa [Place.advance_append, Place.advance_append]

section Follows

variable {path source : String} (h : Follows d x run y)
include h

theorem Follows.exists_list (hd : IsRead path source d) :
    ∃ (p : NodeId) (pre post : List NodeId), Reaches d.refs root p ∧ d.refs p ≠ [] ∧
      d.branch p 0 = (pre ++ x :: (run ++ y :: post)).map .node ∧
      ∃ left t right m, source.toList = left ++ (t ++ right) ∧
        Reads d ((Place.startOf path).advance left) t m ∧
        m.reduceOption = pre ++ x :: (run ++ y :: post) := by
  obtain ⟨p, pre, post, hp, hchildren⟩ := h.list
  have hbranch : d.childNodes p = (d.branch p 0).nodes := by
    rw [childNodes, children, branch, Node.branch_zero]
  have hrefs : d.refs p ≠ [] := by
    rw [hd.refs_eq, ← hbranch, hchildren]
    simp
  obtain ⟨-, left, t, right, m, hsource, hb, hread⟩ := hd.list hp hrefs
  have hm : d.branch p 0 = listBranch m := by
    rw [branch, Node.branch, ← branches, hb]
    rfl
  rw [hbranch, hm, nodes_listBranch] at hchildren
  refine ⟨p, pre, post, hp, hrefs, ?_, left, t, right, m, hsource, hread, hchildren⟩
  rw [hm, listBranch, hchildren]

theorem Follows.readApart (hd : IsRead path source d) : ∃ s t, ReadApart d path source x run y s t := by
  obtain ⟨p, pre, post, -, -, -, left, t, right, m, hsource, hread, hm⟩ := h.exists_list hd
  obtain ⟨left', s, between, u, right', items, rfl, hs, hbetween, hit, hu⟩ := hread.cut hm
  refine ⟨s, u, left ++ left', between, right' ++ right, items, ?_, ?_, ?_, hit, ?_⟩
  · rw [hsource]
    simp only [List.append_assoc]
  · rwa [Place.advance_append]
  · rwa [List.append_assoc, Place.advance_append]
  · rwa [List.append_assoc, List.append_assoc, Place.advance_append, ← List.append_assoc]

theorem Follows.writtenApart (hd : IsRead path source d) (ha : Compiled d a) :
    WrittenApart a x (gap d x run y) y := by
  obtain ⟨p, pre, post, hp, hrefs, hbranch, -⟩ := h.exists_list hd
  obtain ⟨-, l, hl⟩ := ha.list p hp hrefs
  obtain ⟨before, after, hlies⟩ := ha.lies hd hp hrefs
  have hsplit : d.branch p 0 = pre.map .node ++ .node x :: (run.map .node ++ .node y :: post.map .node) := by
    rw [hbranch]
    simp
  have hgap := ha.spaced p hp _ _ x y run hsplit h.first h.second h.blanks
  rw [hsplit, ← List.append_assoc] at hl
  generalize (l.map .node ++ pre.map .node : Branch) = front at hl
  have hroot : d.refs root ≠ [] := by
    intro hnil
    rcases hp.eq_or_child with rfl | ⟨c, hc, -⟩
    · exact hrefs hnil
    · rw [hnil] at hc
      cases hc
  refine ⟨before ++ a.text front, a.text (post.map .node) ++ after, ?_, ?_, ?_⟩
  · have hstands := stands_append front (a := a) (x := x)
      (Stands.node (b := run.map .node ++ .node y :: post.map .node))
    rw [← hl, append_empty] at hstands
    exact hlies.stands hstands
  · have hstands := stands_append front (a := a) (Stands.skipNode (p := x)
      (stands_append (run.map .node) (Stands.node (x := y) (b := post.map .node))))
    rw [← hl, hgap, append_empty] at hstands
    have := hlies.stands hstands
    simpa only [String.append_assoc] using this
  · rw [ha.output_eq hroot, hlies.text_eq, hl, text, writeBranch_append, branch_cons_node,
      writeBranch_append, branch_cons_node, ← hgap]
    simp only [String.append_assoc]

end Follows

/-- **What keeps two tokens apart.** Between two tokens of a compiled script that come next to each
other there is a blank as follows: between words if there was one outside of comments, and between
two equal signs if there was a line break. -/
theorem blanks_between_tokens {path source out : String}
    (h : language.compileSource path source = .ok out) :
    ∃ d a, grammar.tokenize [] [] root (ofSource path source) = .ok () d ∧
      process [] [] root (ofSource path source) = .ok () a ∧ a.output = out ∧
      ∀ x run y, Follows d x run y → ∃ s t between, ReadApart d path source x run y s t ∧
        WrittenApart a x between y ∧
        ∀ k l, lastMark s = some k → firstMark t = some l →
          (isNameChar k = true → isNameChar l = true → (hasBlank between ↔ run ≠ [])) ∧
          (k = l → k = '+' ∨ k = '-' →
            (hasBlank between ↔ ∃ z ∈ run, hasLineBreak d z = true)) := by
  obtain ⟨a, hprocess, hout⟩ := compileSource_eq_ok.mp h
  obtain ⟨d, ds, htokens, hds, rfl⟩ := process_eq_ok hprocess
  have hd := isRead_of_tokenize htokens
  refine ⟨d, _, htokens, hprocess, hout, fun x run y hf => ?_⟩
  obtain ⟨s, t, hread⟩ := hf.readApart hd
  refine ⟨s, t, gap d x run y, hread, hf.writtenApart hd (compiled_of_isRead hd hds), fun k l hk hl => ?_⟩
  obtain ⟨_, _, _, _, -, hs, -, -, ht⟩ := hread
  have hx : Marked d x k := hs.marked (.inr hk)
  have hy : Marked d y l := ht.marked (.inl hl)
  refine ⟨fun hkname hlname => hasBlank_gap_of_words (hx.word hkname) (hy.word hlname), ?_⟩
  rintro rfl hsign
  exact hasBlank_gap_of_signs hsign (hx.sign hsign) (hy.sign hsign)

/-- A comment does not keep words apart. -/
theorem blanks_between_tokens_comment : ∃ out d a between,
    language.compileSource "s" "var/**/x" = .ok out ∧ a.output = out ∧ Follows d 1 [] 2 ∧
      d.ownText 1 = "var" ∧ d.ownText 2 = "x" ∧ WrittenApart a 1 between 2 ∧ ¬ hasBlank between := by
  have hok : succeeds (process [] [] root) (ofSource "s" "var/**/x") (fun _ _ => true) = true := by
    decide +kernel
  have htok : succeeds (grammar.tokenize [] [] root) (ofSource "s" "var/**/x") (fun _ d =>
      decide (d.childNodes root = [1, 2] ∧ d.kind 1 = .keyword ∧ d.kind 2 = .identifier ∧
        d.ownText 1 = "var" ∧ d.ownText 2 = "x")) = true := by
    decide +kernel
  obtain ⟨_, a, ha, -⟩ := of_succeeds hok
  obtain ⟨_, d, hd, hcheck⟩ := of_succeeds htok
  obtain ⟨hchildren, hk, hk', hvar, hx⟩ := of_decide_eq_true hcheck
  have hcompiled : language.compileSource "s" "var/**/x" = .ok a.output :=
    compileSource_eq_ok.mpr ⟨a, ha, rfl⟩
  obtain ⟨d', a', hd', ha', hout, hseams⟩ := blanks_between_tokens hcompiled
  rw [hd] at hd'
  cases hd'
  have hf : Follows d 1 [] 2 :=
    ⟨⟨root, [], [], .refl, hchildren⟩, by rw [hk]; decide, by rw [hk']; decide, by simp⟩
  obtain ⟨s, t, between, ⟨_, _, _, _, -, hs, -, -, ht⟩, hwritten, hmarks⟩ := hseams 1 [] 2 hf
  rw [hs.eq_ownText (by rw [hk]; rfl), ht.eq_ownText (by rw [hk']; rfl), hvar, hx] at hmarks
  have hblank := (hmarks 'r' 'x' (by decide) (by decide)).1 (by decide) (by decide)
  exact ⟨_, d, a', between, hcompiled, hout, hf, hvar, hx, hwritten, fun h => hblank.mp h rfl⟩

end Script

end Stencil
