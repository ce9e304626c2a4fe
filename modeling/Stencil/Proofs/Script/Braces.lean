import Stencil.Proofs.Doc.Walking
import Stencil.Proofs.Script.Seams

/-!
# Braces at the start of scopes

A space is put in front of the content of a scope that starts with a brace. Spaces stand behind braces
only, so none of them changes how a node starts (`firstChar_sourceOf_openScope`), and in the end no
scope has a first fragment that starts with a brace (`exists_spread`).

That does not keep all braces apart. The first fragment may be a blank of which compressing has left
nothing: such a blank stays behind a comment. So **two braces meet exactly where the first token of a
scope, blanks left out, is a scope with a blank in front of it** (`braces_at_openings`).
-/

namespace Stencil

open List

variable {a b' d : Document} {script x y : NodeId} {k : Kind} {w : NodeId → String}

/-! ### First characters -/

namespace Text

def firstChar (s : String) : Option Char := s.toList.head?

theorem firstChar_append (s t : String) : firstChar (s ++ t) = (firstChar s).or (firstChar t) := by
  simp [firstChar, head?_append]

end Text

namespace Document

open Text

variable {w' : NodeId → String}

theorem firstChar_writeDefault_congr (h : ∀ c ∈ d.uses x, firstChar (w c) = firstChar (w' c)) :
    firstChar (d.writeDefault w x) = firstChar (d.writeDefault w' x) :=
  writeDefault_related (R := fun s t => firstChar s = firstChar t) (fun _ => rfl)
    (fun hs ht => by rw [firstChar_append, firstChar_append, hs, ht]) h

end Document

namespace Script

open Document Text

variable {s : NodeId}

/-! ### Spaces behind braces -/

theorem firstChar_writeDefault_scope (hk : d.kind s = .scope)
    (hp : (d.node s).payload = .none) : firstChar (d.writeDefault w s) = some '\x7b' := by
  rw [write_of_none hp, hk, firstChar_append, firstChar_append]
  rfl

theorem firstChar_sourceOf_openScope (hk : a.kind s = .scope) (hp : (a.node s).payload = .none)
    (hx : Shallow a.uses a.size x) (hx' : Shallow (openScope a s).uses (openScope a s).size x)
    (hlt : ∀ y, Reaches a.uses x y → y < a.size) :
    firstChar ((openScope a s).sourceOf x) = firstChar (a.sourceOf x) := by
  obtain ⟨n, hn⟩ : ∃ n, Shallow a.uses n x := ⟨_, hx⟩
  induction n generalizing x with
  | zero => exact hn.elim
  | succ n ih =>
    rw [sourceOf_eq hx, sourceOf_eq hx']
    by_cases hxs : x = s
    · subst hxs
      have hnode := openScope_scope (a := a) (hlt x .refl)
      rw [firstChar_writeDefault_scope (by rw [kind, hnode]; exact hk) (by rw [hnode]; exact hp),
        firstChar_writeDefault_scope hk hp]
    · have hnode := openScope_of_lt (hlt x .refl) hxs
      rw [writeDefault_of_node_eq _ hnode]
      refine firstChar_writeDefault_congr fun c hc => ?_
      have hc' : c ∈ (openScope a s).uses x := by rwa [uses, hnode]
      exact ih (hx.reaches (.child hc)) (hx'.reaches (.child hc')) (fun y hy => hlt y (.head hc hy))
        (hn c hc)

section Separating

variable {ds : List Declaration} {c : NodeId} {a' : Document} {l done : List NodeId}

/-- A scope of the script that holds nothing but its list. -/
structure PlainScope (d : Document) (script s : NodeId) : Prop where
  below : Reaches d.refs script s
  kind_eq : d.kind s = .scope
  payload_eq : (d.node s).payload = .none

/-- Spaces have been put into some scopes of a renamed script. -/
structure Opened (d : Document) (ds : List Declaration) (script : NodeId) (a' b' : Document) :
    Prop extends
    Separated (newScript d ds script) (respelled d (newScript d ds script)) a' b',
    Fronted (newScript d ds script) a'

theorem PlainScope.lt_size (hs : PlainScope d script s) (hu : d.UniqueOwner script) :
    s < (newScript d ds script).size :=
  lt_newScript hu hs.below

variable (hds : declarations d script = .ok ds) (hu : d.UniqueOwner script)
  (hn : ∀ x, Reaches d.refs script x → (d.node x).naming? = none)

namespace Opened

variable (h : Opened d ds script a' b')
include hu h

theorem kind_scope (hs : PlainScope d script s) : a'.kind s = .scope := by
  rw [h.kind_eq s (hs.lt_size hu), kind_newScript, hs.kind_eq]

include hds in
theorem payload_scope (hs : PlainScope d script s) : (a'.node s).payload = .none := by
  rw [h.payload_eq s (hs.lt_size hu),
    newScript_of_ne hds hu (by rw [hs.kind_eq]; decide), hs.payload_eq]

theorem openScope (hs : PlainScope d script s) :
    Opened d ds script (Script.openScope a' s) (b'.prepend s [.text " "]) where
  toSeparated := h.toSeparated.openScope (hs.lt_size hu) (by simp)
    (by rw [kind_newScript, hs.kind_eq])
  new_kind := (h.toFronted.openScope (hs.lt_size hu)).new_kind
  branches := (h.toFronted.openScope (hs.lt_size hu)).branches
  kind_eq := (h.toFronted.openScope (hs.lt_size hu)).kind_eq

theorem below_of_mem_refs (hs : PlainScope d script s) (hc : c ∈ a'.refs s) :
    Reaches d.refs script c ∨ IsNew (newScript d ds script) a' c :=
  (mem_refs_of_scope hu h.toSeparated hs.below hs.kind_eq hc).imp_left hs.below.tail

include hds hn

theorem lt_size_of_uses (hx : Reaches d.refs script x ∨ IsNew (newScript d ds script) a' x)
    (hy : Reaches a'.uses x y) : y < a'.size := by
  rcases hx with hx | hx
  · rcases reaches_of_twin (fun x hx => twin_of_separated hds hu hn h.toSeparated hx) h.space hx hy with
      hy | ⟨-, hy⟩
    · exact lt_of_lt_of_le (lt_newScript hu hy) h.size_le
    · exact hy
  · rcases hy.eq_or_child with rfl | ⟨c, hc, -⟩
    · exact hx.2
    · rw [(h.toSeparated.space x hx).uses_eq] at hc
      cases hc

theorem opensWithBrace_openScope (hs : PlainScope d script s) (hx : PlainScope d script x)
    (hne : x ≠ s) : opensWithBrace (Script.openScope a' s) x = opensWithBrace a' x := by
  have hchildren : (Script.openScope a' s).children x = a'.children x := by
    rw [children, openScope_of_lt (lt_of_lt_of_le (hx.lt_size hu) h.size_le) hne]
    rfl
  rw [opensWithBrace, opensWithBrace, hchildren]
  split
  case h_1 => rfl
  case h_3 => rfl
  case h_2 c rest heq =>
    have hc : c ∈ a'.refs x := refs_of_children (by rw [heq]; exact mem_cons_self)
    have hbelow := h.below_of_mem_refs hu hx hc
    have hopen := h.openScope hu hs
    have hbelow' : Reaches d.refs script c ∨
        IsNew (newScript d ds script) (Script.openScope a' s) c :=
      hbelow.imp_right fun hnew => ⟨hnew.1, lt_of_lt_of_le hnew.2 (by simp [size_openScope])⟩
    have hfirst := firstChar_sourceOf_openScope (h.kind_scope hu hs) (h.payload_scope hds hu hs)
      (shallow_uses hds hu hn h.toSeparated hbelow) (shallow_uses hds hu hn hopen.toSeparated hbelow')
      fun y hy => h.lt_size_of_uses hds hu hn hbelow hy
    rw [firstChar, firstChar] at hfirst
    rw [hfirst]

omit hds hn in
theorem opensWithBrace_self (hs : PlainScope d script s) :
    opensWithBrace (Script.openScope a' s) s = false := by
  have hlt : s < a'.size := lt_of_lt_of_le (hs.lt_size hu) h.size_le
  have hchildren : (Script.openScope a' s).children s = .node a'.size :: a'.children s := by
    rw [children, openScope_scope hlt, Node.setBranch_zero, Node.branch_zero]
    rfl
  rw [opensWithBrace, hchildren]
  dsimp only
  rw [(isText_openScope (ne_of_lt hlt)).sourceOf_eq]
  decide

theorem opensWithBrace_foldl (hdone : ∀ s ∈ done, PlainScope d script s ∧ opensWithBrace a' s = false)
    (hl : ∀ s ∈ l, PlainScope d script s)
    (hkept : ∀ s, PlainScope d script s → opensWithBrace (newScript d ds script) s = true ∨
      a'.node s = (newScript d ds script).node s ∧ opensWithBrace a' s = false) :
    ∃ a'' b'', a'' = l.foldl (fun d s => if opensWithBrace d s then Script.openScope d s else d) a' ∧
      Opened d ds script a'' b'' ∧ (∀ s ∈ done ++ l, opensWithBrace a'' s = false) ∧
      ∀ s, PlainScope d script s → opensWithBrace (newScript d ds script) s = true ∨
        a''.node s = (newScript d ds script).node s ∧ opensWithBrace a'' s = false := by
  induction l generalizing a' b' done with
  | nil => exact ⟨a', b', rfl, h, fun s hs => (hdone s (by simpa using hs)).2, hkept⟩
  | cons s l ih =>
    obtain ⟨hs, hl⟩ := forall_mem_cons.mp hl
    have hlist : done ++ s :: l = (done ++ [s]) ++ l := by simp
    rw [foldl_cons, hlist]
    split_ifs with hbrace
    · refine ih (h.openScope hu hs) (fun x hx => ?_) hl fun x hx => ?_
      · by_cases hne : x = s
        · rw [hne]
          exact ⟨hs, h.opensWithBrace_self hu hs⟩
        · obtain ⟨hplain, hfalse⟩ := hdone x (by simpa [hne] using hx)
          exact ⟨hplain, (h.opensWithBrace_openScope hds hu hn hs hplain hne).trans hfalse⟩
      · by_cases hne : x = s
        · subst hne
          refine .inl ((hkept x hx).resolve_right fun hno => ?_)
          rw [hno.2] at hbrace
          cases hbrace
        · refine (hkept x hx).imp_right fun hsame => ⟨?_, ?_⟩
          · rw [openScope_of_lt (lt_of_lt_of_le (hx.lt_size hu) h.size_le) hne, hsame.1]
          · rw [h.opensWithBrace_openScope hds hu hn hs hx hne, hsame.2]
    · refine ih h (fun x hx => ?_) hl hkept
      rcases mem_append.mp hx with hx | hx
      · exact hdone x hx
      · rw [mem_singleton.mp hx]
        exact ⟨hs, by simpa using hbrace⟩

end Opened

/-- What separating the braces has made of a renamed script. -/
structure Spread (d : Document) (ds : List Declaration) (script : NodeId) (a b : Document) : Prop
    extends Opened d ds script a b where
  /-- No scope has a first fragment that starts with a brace. -/
  apart : ∀ s ∈ d.descendants script [.scope] [], opensWithBrace a s = false
  /-- Only scopes that had one have got a space. -/
  kept : ∀ s, PlainScope d script s → opensWithBrace (newScript d ds script) s = false →
    a.node s = (newScript d ds script).node s

include hds hu in
theorem opened_start :
    Opened d ds script (newScript d ds script) (respelled d (newScript d ds script)) :=
  { Separated.refl fun _ hk => node_respelled_of_scope hds hu hk, Fronted.refl _ with }

include hds hu hn in
theorem exists_spread (hplain : ∀ s ∈ d.descendants script [.scope] [], (d.node s).payload = .none) :
    ∃ b, Spread d ds script (separateBraces (newScript d ds script) script) b := by
  have hscopes : ∀ s ∈ d.descendants script [.scope] [], PlainScope d script s := fun s hs =>
    ⟨reaches_of_enc (encloses_of_descendant hs),
      by simpa [hasKind] using (mem_filter.mp hs).2, hplain s hs⟩
  have hsame : separateBraces (newScript d ds script) script =
      (d.descendants script [.scope] []).foldl
        (fun d s => if opensWithBrace d s then Script.openScope d s else d)
        (newScript d ds script) := by
    rw [← (scopes_newScript : (newScript d ds script).descendants script [.scope] [] = _)]
    rfl
  obtain ⟨a'', b'', heq, hopen, hfalse, hkept⟩ := (opened_start hds hu).opensWithBrace_foldl hds hu hn
    (fun s (hs : s ∈ []) => absurd hs not_mem_nil) hscopes fun s _ => by
      cases opensWithBrace (newScript d ds script) s <;> simp
  rw [hsame, ← heq]
  refine ⟨b'', { hopen with
    apart := fun s hs => hfalse s (by simpa using hs)
    kept := fun s hs hno => ?_ }⟩
  rcases hkept s hs with hyes | hsame
  · rw [hno] at hyes
    cases hyes
  · exact hsame.1

end Separating

/-! ### What is written for scopes -/

/-- In the output the brace that opens a scope is followed by another brace. -/
def BracesMeet (a : Document) (s : NodeId) : Prop := ['\x7b', '\x7b'] <+: (a.outputOf s).toList

theorem bracesMeet_iff_of_eq {content : String} (h : a.outputOf s = "\x7b" ++ content ++ "\x7d") :
    BracesMeet a s ↔ firstChar content = some '\x7b' := by
  have hhead : ∀ l : List Char, ['\x7b', '\x7b'] <+: '\x7b' :: l ↔ l.head? = some '\x7b' := by
    intro l
    cases l with
    | nil => simp
    | cons c l => simp [cons_prefix_cons, eq_comm]
  rw [BracesMeet, h, firstChar]
  simp only [String.toList_append, String.reduceToList, cons_append, hhead, head?_append]
  cases content.toList.head? <;> simp

theorem bracesMeet_iff {b : Branch} {n : Nat} (hsize : a.size = n + 1) (hk : a.kind s = .scope)
    (hp : (a.node s).payload = .none) (hb : a.branches s = [b]) :
    BracesMeet a s ↔ firstChar (writeBranch (a.writeNode Output.manner n) b) = some '\x7b' := by
  have hmanner : Output.manner a (a.writeNode Output.manner n) s = none := by
    simp only [Output.manner, hk]
    rfl
  refine bracesMeet_iff_of_eq ?_
  rw [outputOf, render, hsize, writeNode, hmanner, Option.getD_none, write_of_none hp, hk,
    writeBranches, hb]
  simp [Kind.delimiters]

theorem writeNode_space {n : Nat} (ht : IsText (a.node x) " ")
    (hk : a.kind x = .root ∨ a.kind x = .requiredSpace) :
    a.writeNode Output.manner (n + 1) x = " " := by
  have hmanner : Output.manner a (a.writeNode Output.manner n) x = none := by
    rcases hk with hk | hk <;> simp only [Output.manner, hk] <;> rfl
  have hdelimiters : (a.kind x).delimiters = none := ht.delimiters_eq
  rw [writeNode, hmanner, Option.getD_none, write_of_none ht.payload_eq, hdelimiters,
    writeBranches, branches, ht.branches_eq]
  simp

section Meeting

variable {ds : List Declaration} {b : Branch}
  (hds : declarations d script = .ok ds) (hu : d.UniqueOwner script)
  (h : Opened d ds script a b') (hs : PlainScope d script s) (hb : d.branches s = [b])
include hds hu h hs hb

theorem Opened.branches_scope : ∃ l : List NodeId,
    (∀ z ∈ l, (newScript d ds script).size ≤ z) ∧ a.branches s = [l.map .node ++ b] := by
  refine h.toFronted.branches s (hs.lt_size hu) b ?_
  rwa [Document.branches, newScript_of_ne hds hu (by rw [hs.kind_eq]; decide)]

theorem Opened.branches_of_bracesMeet (hmeet : BracesMeet a s) : a.branches s = [b] := by
  obtain ⟨l, hnew, hl⟩ := h.branches_scope hds hu hs hb
  cases l with
  | nil => exact hl
  | cons z l =>
    have hz := hnew z mem_cons_self
    have hmem : z ∈ a.refs s := refs_of_branch (by rw [hl]; exact mem_cons_self) (by simp)
    obtain ⟨-, hza⟩ := (h.below_of_mem_refs hu hs hmem).resolve_left fun hr =>
      not_lt.mpr hz (lt_newScript hu hr)
    have hsize : 1 < a.size :=
      lt_of_le_of_lt (Nat.one_le_of_lt (lt_of_lt_of_le (hs.lt_size hu) hz)) hza
    obtain ⟨n, hn⟩ := Nat.exists_eq_add_of_lt hsize
    rw [Nat.add_comm 1 n] at hn
    rw [bracesMeet_iff hn (h.kind_scope hu hs) (h.payload_scope hds hu hs) hl, map_cons,
      cons_append, branch_cons_node, writeNode_space (h.space z ⟨hz, hza⟩) (h.new_kind z hz),
      firstChar_append] at hmeet
    cases hmeet

/-- **Where braces can meet:** in a scope whose first fragment does not start with a brace. -/
theorem Opened.first_of_bracesMeet (hclosed : opensWithBrace a s = false) (hmeet : BracesMeet a s) :
    ∃ f rest, b = f :: rest ∧ firstChar (a.text [f]) ≠ some '\x7b' := by
  have hbranches := h.branches_of_bracesMeet hds hu hs hb hmeet
  obtain ⟨n, hn⟩ := Nat.exists_eq_succ_of_ne_zero
    (Nat.ne_zero_of_lt (lt_of_lt_of_le (hs.lt_size hu) h.size_le))
  rw [bracesMeet_iff hn (h.kind_scope hu hs) (h.payload_scope hds hu hs) hbranches] at hmeet
  rw [opensWithBrace, children_of_branches hbranches] at hclosed
  cases b with
  | nil => cases hmeet
  | cons f rest =>
    refine ⟨f, rest, rfl, ?_⟩
    cases f with
    | text t => simpa [firstChar, text] using hclosed
    | node c => simpa [firstChar, text] using hclosed

end Meeting

/-! ### What tokens start with -/

theorem Worded.head? {t : List Char} (h : Worded k t) : ∃ c, t.head? = some c ∧ c ≠ '\x7b' := by
  -- blanks in front of something else
  have hblanks : ∀ {before : List Char} {c : Char} {after : List Char},
      (∀ x ∈ before, Text.isBlank x = true) → c ≠ '\x7b' →
      ∃ k, (before ++ c :: after).head? = some k ∧ k ≠ '\x7b' := by
    intro before c after hbef hc
    cases before with
    | nil => exact ⟨c, rfl, hc⟩
    | cons x before =>
      refine ⟨x, rfl, ?_⟩
      rintro rfl
      exact absurd (hbef _ mem_cons_self) (by decide)
  cases h with
  | keyword hw =>
    cases t with
    | nil => exact absurd hw (by decide)
    | cons c t =>
      refine ⟨c, rfl, ?_⟩
      rintro rfl
      exact absurd (isNameChar_of_keyword hw (by simp)) (show ¬ isNameChar '\x7b' = true by decide)
  | identifier hc _ =>
    refine ⟨_, rfl, ?_⟩
    rintro rfl
    exact absurd hc (by decide)
  | number hc _ =>
    refine ⟨_, rfl, ?_⟩
    rintro rfl
    exact absurd hc (by decide)
  | operator hbef hc _ =>
    refine hblanks (fun x hx => isBlank_of_isPadding (hbef x hx)) ?_
    rintro rfl
    exact absurd hc (by decide)
  | blank hs hall =>
    cases t with
    | nil => exact absurd rfl hs
    | cons x t =>
      refine ⟨x, rfl, ?_⟩
      rintro rfl
      exact absurd (hall _ mem_cons_self) (by decide)
  | regex hbef _ => exact hblanks hbef (by decide)

end Script

namespace ShortName

open Text

theorem head?_letters (n : Nat) : ∃ i, (letters (n + 1)).head? = some (letter i) := by
  induction n using Nat.strong_induction_on with
  | _ n ih =>
    rw [letters, dif_neg (Nat.succ_ne_zero n), Nat.add_sub_cancel]
    rcases Nat.eq_zero_or_pos (n / 26) with hzero | hpos
    · rw [hzero, letters, dif_pos rfl]
      exact ⟨n, rfl⟩
    · obtain ⟨i, hi⟩ := ih (n / 26 - 1) (by omega)
      rw [Nat.sub_add_cancel hpos] at hi
      exact ⟨i, by rw [head?_append, hi]; rfl⟩

theorem firstChar_firstFree (used : List String) : ∃ i, firstChar (firstFree used) = some (letter i) := by
  have hfrom : ∀ count n, ∃ k, firstFreeFrom used count n = nth k := by
    intro count
    induction count with
    | zero => exact fun n => ⟨n, rfl⟩
    | succ count ih =>
      intro n
      rw [firstFreeFrom]
      split_ifs
      · exact ⟨n, rfl⟩
      · exact ih (n + 1)
  obtain ⟨k, hk⟩ := hfrom (used.length + reservedWords.length) 0
  rw [firstFree, hk, firstChar, nth, String.toList_ofList]
  exact head?_letters k

theorem letter_ne_brace (i : Nat) : letter i ≠ '\x7b' := by
  intro h
  have hnat := toNat_letter i
  rw [h] at hnat
  have : '\x7b'.toNat = 123 := by decide
  omega

end ShortName

namespace Script

open Document Text

variable {s : NodeId} {ds : List Declaration}

theorem exists_firstFree_of_mem_assign {taken : List String} {es : List Declaration} {r : Renaming}
    (h : r ∈ assign taken es) : ∃ used, r.short = ShortName.firstFree used := by
  induction es generalizing taken with
  | nil => cases h
  | cons e more ih =>
    rcases mem_cons.mp h with rfl | h
    · exact ⟨taken, rfl⟩
    · exact ih h

theorem firstChar_short {free : List String} {r : Renaming} (h : r ∈ renamingsOf d ds script free) :
    ∃ c, firstChar r.short = some c ∧ c ≠ '\x7b' := by
  obtain ⟨taken, -, hr, -⟩ := exists_visit h
  rw [ownRenamings] at hr
  split_ifs at hr
  · cases hr
  · obtain ⟨used, hused⟩ := exists_firstFree_of_mem_assign hr
    obtain ⟨i, hi⟩ := ShortName.firstChar_firstFree used
    exact ⟨_, by rw [hused, hi], ShortName.letter_ne_brace i⟩

section Tokens

variable (hds : declarations d script = .ok ds) (hu : d.UniqueOwner script)
  (hn : ∀ x, Reaches d.refs script x → (d.node x).naming? = none) (h : Opened d ds script a b')
include hds hu hn h

theorem Opened.identifier_cases (hx : Reaches d.refs script x) (hk : d.kind x = .identifier) :
    (∃ c, firstChar (a.sourceOf x) = some c ∧ c ≠ '\x7b') ∨ a.node x = d.node x := by
  have hshallow := shallow_uses hds hu hn h.toSeparated (.inl hx)
  have hrenamed : ∀ {r : Renaming}, r ∈ renamingsOf d ds script (freeOf d ds script) →
      Shallow a.uses a.size r.declaration.node → a.sourceOf r.declaration.node = r.short :=
    fun hr hs => by
      rw [sourceOf_eq hs, write_of_rename (rename_of_renaming hds hu hn h.toSeparated hr).2]
  rcases role_cases hds hu x with ⟨r, hr, rfl⟩ | ⟨t, hl⟩ | ⟨hd, hl⟩
  · rw [hrenamed hr hshallow]
    exact .inl (firstChar_short hr)
  · -- what is followed has a new name
    obtain ⟨f, hf, rfl⟩ := exists_target hl
    obtain ⟨r, hr, rfl⟩ := exists_renaming hu (freeOf d ds script) hf
      (encloses_scope hds (mem_namesOf.mp hf).1)
    have hnode : a.node x = { d.node x with payload := .naming { target := some r.declaration.node } } := by
      rw [(eq_of_identifier hu h.toSeparated hx hk).1, newScript_of_link hds hu hn hl]
    have hne : r.declaration.node ≠ x := by
      rintro rfl
      exact not_mem_linksOf hds hu hf (mem_map_of_mem hl)
    refine .inl ?_
    rw [sourceOf_eq hshallow, write_of_target (by rw [hnode]) rfl]
    dsimp only
    rw [if_neg hne, hrenamed hr (shallow_uses hds hu hn h.toSeparated (.inl (located_of_renaming hds hr).1))]
    exact firstChar_short hr
  · refine .inr ?_
    rw [(eq_of_identifier hu h.toSeparated hx hk).1, newScript_of_not_mem hd hl]

omit hn in
theorem Opened.node_token (hx : Reaches d.refs script x) (hk : d.kind x ≠ .identifier)
    (hk' : d.kind x ≠ .scope) : a.node x = d.node x := by
  rw [(h.other x (lt_newScript hu hx) (by rwa [kind_newScript])).1, newScript_of_ne hds hu hk]

end Tokens

/-! ### Scripts that have been read -/

section Read

variable {path source : String} (h : IsRead path source d)
  (hds : declarations (compress d root) root = .ok ds) (ho : Opened (compress d root) ds root a b')

theorem isText_of_textBranch {n : Node} {t : List Char} (hk : n.kind.delimiters = none)
    (hp : n.payload = .none) (hb : n.branches = [textBranch t]) (ht : t ≠ []) :
    IsText n (String.ofList t) where
  delimiters_eq := hk
  payload_eq := hp
  branches_eq := by
    have hne : String.ofList t ≠ "" := by simpa using ht
    simp only [hb, textBranch, Branch.stack, if_neg hne]

theorem Worded.delimiters_eq {t : List Char} (h : Worded k t) : k.delimiters = none := by
  cases h <;> rfl

include h hds ho

theorem IsRead.shallow_opened (hy : Reaches d.refs root y) : Shallow a.uses a.size y :=
  shallow_uses hds h.owner_compress (fun x _ => h.naming?_compress x) ho.toSeparated
    (.inl (h.reaches_compress hy))

omit hds in
theorem IsRead.kind_opened (hy : Reaches d.refs root y) : a.kind y = d.kind y := by
  rw [ho.kind_eq y (lt_newScript h.owner_compress (h.reaches_compress hy)),
    kind_newScript, (compress_rewrites d).kind_eq]

theorem IsRead.payload_opened (hy : Reaches d.refs root y) (hk : d.kind y ≠ .identifier) :
    (a.node y).payload = .none := by
  rw [ho.payload_eq y (lt_newScript h.owner_compress (h.reaches_compress hy)),
    newScript_of_ne hds h.owner_compress (by rwa [(compress_rewrites d).kind_eq]),
    h.payload_compress]

theorem IsRead.firstChar_delimited {c : Char} (hy : Reaches d.refs root y)
    (hk : d.kind y ≠ .identifier) (hc : firstChar (d.kind y).opener = some c) :
    firstChar (a.sourceOf y) = some c := by
  rw [sourceOf_eq (h.shallow_opened hds ho hy), write_of_none (h.payload_opened hds ho hy hk),
    h.kind_opened ho hy, firstChar_append, firstChar_append, ← Kind.opener, hc]
  rfl

theorem IsRead.firstChar_word {t : List Char} (hy : Reaches d.refs root y) (hne : y ≠ root)
    (hblank : d.kind y ≠ .scriptSpace) (hw : Worded (d.kind y) t) (hb : d.branches y = [textBranch t]) :
    ∃ c, firstChar (a.sourceOf y) = some c ∧ c ≠ '\x7b' := by
  have hD := h.reaches_compress hy
  have hu := h.owner_compress
  have hkind := (compress_rewrites d).kind_eq y
  have hnode : d.kind y ≠ .operator → (compress d root).node y = d.node y :=
    (compress_pressed h.isSplit).other y hy hne hblank
  -- what is written as in the source
  have hsame : a.node y = d.node y → ∃ c, firstChar (a.sourceOf y) = some c ∧ c ≠ '\x7b' := by
    intro heq
    obtain ⟨c, hc, hbrace⟩ := hw.head?
    have htext : IsText (a.node y) (String.ofList t) := by
      rw [heq]
      refine isText_of_textBranch hw.delimiters_eq (h.payload_eq y) hb ?_
      rintro rfl
      cases hc
    exact ⟨c, by rw [htext.sourceOf_eq, firstChar, String.toList_ofList, hc], hbrace⟩
  by_cases hid : d.kind y = .identifier
  · refine (ho.identifier_cases hds hu (fun x _ => h.naming?_compress x) hD (hkind.trans hid)).elim id
      fun heq => hsame ?_
    rw [heq, hnode (by rw [hid]; decide)]
  · have htoken := ho.node_token hds hu hD (by rwa [hkind]) (by
      rw [hkind]
      generalize d.kind y = k at hw
      cases hw <;> decide)
    by_cases hop : d.kind y = .operator
    · -- an operator without the blanks around it
      rw [hop] at hw
      cases hw with
      | @operator before after c hbef hc hafter =>
        have htext : operatorText d y = String.ofList [c] := by
          rw [operatorText, ownText_of_branches hb,
            trim_of_blanks (fun x hx => isBlank_of_isPadding (hbef x hx)) (operatorChars_marks hc).1
              fun x hx => isBlank_of_isPadding (hafter x hx)]
        have hsource : a.sourceOf y = String.ofList [c] := by
          refine IsText.sourceOf_eq ?_
          rw [htoken, (compress_pressed h.isSplit).operator y hy hne hop, htext]
          refine ⟨?_, h.payload_eq y, rfl⟩
          exact (congrArg Kind.delimiters hop).trans rfl
        refine ⟨c, by rw [hsource, firstChar, String.toList_ofList]; rfl, ?_⟩
        rintro rfl
        exact absurd hc (by decide)
    · exact hsame (by rw [htoken, hnode hop])

/-- **Scopes start with braces, and nothing else does.** -/
theorem IsRead.firstChar_token (hy : Reaches d.refs root y) (hne : y ≠ root)
    (hblank : d.kind y ≠ .scriptSpace) :
    ∃ c, firstChar (a.sourceOf y) = some c ∧ (c = '\x7b' ↔ d.kind y = .scope) := by
  obtain ⟨_, _, _, -, hread⟩ := h.token hy hne
  generalize hl : [some y] = l at hread
  cases hread with
  | nil => cases hl
  | comment => cases hl
  | word hw _ hb =>
    cases hl
    obtain ⟨c, hc, hbrace⟩ := h.firstChar_word hds ho hy hne hblank hw hb
    refine ⟨c, hc, iff_of_false hbrace ?_⟩
    generalize d.kind y = k at hw
    cases hw <;> decide
  | quoted hk =>
    cases hl
    generalize hkind : d.kind y = k at hk
    cases hk with
    | double =>
      exact ⟨'"', h.firstChar_delimited hds ho hy (by rw [hkind]; decide) (by rw [hkind]; rfl),
        by decide⟩
    | single =>
      exact ⟨'\'', h.firstChar_delimited hds ho hy (by rw [hkind]; decide) (by rw [hkind]; rfl),
        by decide⟩
  | bracketed hopening =>
    cases hl
    have hb := hopening.bracketed
    generalize hkind : d.kind y = k at hb
    have hchar : ∃ c, firstChar k.opener = some c ∧ (c = '\x7b' ↔ k = .scope) := by
      cases k <;> simp [isBracketed] at hb <;> exact ⟨_, rfl, by decide⟩
    obtain ⟨c, hc, hbrace⟩ := hchar
    refine ⟨c, h.firstChar_delimited hds ho hy ?_ (by rwa [hkind]), hbrace⟩
    rintro hid
    rw [hkind] at hid
    rw [hid] at hb
    cases hb

omit hds ho in
theorem IsRead.below_scope {l : List NodeId} (hs : Reaches d.refs root s)
    (hl : d.branches s = [l.map .node]) (hy : y ∈ l) : Reaches d.refs root y ∧ y ≠ root := by
  have hmem : y ∈ d.refs s := by
    rwa [refs_of_branches (h.payload_eq s) hl, nodes_map_node]
  refine ⟨hs.tail hmem, ?_⟩
  rintro rfl
  exact h.uniqueOwner.top_free hs hmem

theorem IsRead.sourceOf_lead {l run rest : List NodeId} {z : NodeId} (hs : Reaches d.refs root s)
    (hk : d.kind s = .scope) (hl : d.branches s = [l.map .node]) (heq : l = run ++ rest)
    (hrun : ∀ z ∈ run, d.kind z = .scriptSpace) (hrest : ∀ z ∈ rest.head?, d.kind z ≠ .scriptSpace)
    (hz : z ∈ run) : a.sourceOf z = "" := by
  have hbranch : d.branch s 0 = run.map .node ++ rest.map .node := by
    rw [branches] at hl
    rw [branch, Node.branch, hl, heq, List.map_append]
    rfl
  obtain ⟨hreached, -⟩ := h.below_scope hs hl (heq ▸ mem_append_left _ hz)
  have hkind : (compress d root).kind z = .scriptSpace := by
    rw [(compress_rewrites d).kind_eq, hrun z hz]
  have hnode := ho.node_token hds h.owner_compress (h.reaches_compress hreached)
    (by rw [hkind]; decide) (by rw [hkind]; decide)
  refine IsText.sourceOf_eq ⟨?_, ?_, ?_⟩
  · rw [hnode, ← kind, hkind]
    rfl
  · rw [hnode, h.payload_compress]
  · rw [hnode]
    exact compress_lead h.isSplit hs (by rw [hk]; rfl) hrun (by simpa [Solid] using hrest) hbranch hz

theorem IsRead.firstChar_text {l : List NodeId} (hs : Reaches d.refs root s)
    (hk : d.kind s = .scope) (hl : d.branches s = [l.map .node]) :
    firstChar (a.text (l.map .node)) = some '\x7b' ↔ ∃ run y rest, l = run ++ y :: rest ∧
      (∀ z ∈ run, d.kind z = .scriptSpace) ∧ d.kind y = .scope := by
  have hskip : ∀ {run rest}, l = run ++ rest → (∀ z ∈ run, d.kind z = .scriptSpace) →
      (∀ z ∈ rest.head?, d.kind z ≠ .scriptSpace) → a.text (l.map .node) = a.text (rest.map .node) := by
    intro run rest heq hrun hrest
    have hemp : a.text (run.map .node) = "" :=
      text_of_empty fun z hz => h.sourceOf_lead hds ho hs hk hl heq hrun hrest hz
    rw [text] at hemp ⊢
    rw [heq, List.map_append, writeBranch_append, hemp, String.empty_append]
  -- the first token that is no blank
  have hfirst : ∀ {run y rest}, l = run ++ y :: rest → (∀ z ∈ run, d.kind z = .scriptSpace) →
      d.kind y ≠ .scriptSpace →
      (firstChar (a.text (l.map .node)) = some '\x7b' ↔ d.kind y = .scope) := by
    intro run y rest heq hrun hy
    obtain ⟨hreached, hne⟩ := h.below_scope hs hl (y := y) (by simp [heq])
    obtain ⟨c, hc, hbrace⟩ := h.firstChar_token hds ho hreached hne hy
    rw [hskip heq hrun (by simpa using hy), map_cons, text, branch_cons_node, firstChar_append, hc, ← hbrace]
    simp
  constructor
  · intro hbrace
    have hsplit := takeWhile_append_dropWhile (p := fun z => d.kind z == .scriptSpace) (l := l)
    have hrun : ∀ z ∈ l.takeWhile fun z => d.kind z == .scriptSpace, d.kind z = .scriptSpace :=
      fun z hz => by simpa using mem_takeWhile_imp hz
    cases hrest : l.dropWhile fun z => d.kind z == .scriptSpace with
    | nil =>
      rw [hskip hsplit.symm hrun (by simp [hrest]), hrest] at hbrace
      cases hbrace
    | cons y rest =>
      have hy : d.kind y ≠ .scriptSpace := by
        simpa [hrest] using head?_dropWhile_not (fun z => d.kind z == .scriptSpace) l
      rw [hrest] at hsplit
      exact ⟨_, y, rest, hsplit.symm, hrun, (hfirst hsplit.symm hrun hy).mp hbrace⟩
  · rintro ⟨run, y, rest, heq, hrun, hy⟩
    exact (hfirst heq hrun (by rw [hy]; decide)).mpr hy

omit hds ho in
theorem IsRead.branches_scope (hs : Reaches d.refs root s) (hk : d.kind s = .scope) :
    ∃ l : List NodeId, d.branches s = [l.map .node] := by
  have hne : s ≠ root := by
    rintro rfl
    rw [h.kind_eq] at hk
    cases hk
  obtain ⟨_, _, _, -, hread⟩ := h.token hs hne
  generalize hl : [some s] = l at hread
  cases hread with
  | nil => cases hl
  | comment => cases hl
  | word hw =>
    cases hl
    rw [hk] at hw
    cases hw
  | quoted hq =>
    cases hl
    rw [hk] at hq
    cases hq
  | @bracketed _ _ _ _ _ _ _ _ m _ _ _ _ hb =>
    cases hl
    exact ⟨m.reduceOption, hb⟩

/-- A scope whose first token, blanks left out, is a scope, with a blank in front of that. -/
def OpensBehindBlank (d : Document) (s : NodeId) : Prop := ∃ z run y rest,
  d.branches s = [(z :: run ++ y :: rest).map .node] ∧ (∀ x ∈ z :: run, d.kind x = .scriptSpace) ∧
    d.kind y = .scope

omit hds ho in
theorem IsRead.mem_descendants (hs : Reaches d.refs root s) (hk : d.kind s = .scope) :
    s ∈ (compress d root).descendants root [.scope] [] := by
  have hkids : ∀ x, (compress d root).refs x ⊆ (compress d root).kids x := fun x c hc => by
    rw [refs, Node.references, Node.body, Node.body?, h.payload_compress] at hc
    simpa [kids, branches] using hc
  have hmet : ∀ {y}, Reaches (compress d root).refs root y → y ≠ root →
      (compress d root).Met (fun y => !(compress d root).hasKind y []) root y := by
    intro y hy
    induction hy with
    | refl => exact fun hne => absurd rfl hne
    | @tail p y _ hy ih =>
      intro _
      by_cases hroot : p = root
      · exact .kid (hroot ▸ hkids p hy)
      · exact (ih hroot).tail rfl (hkids p hy)
  have hshallow : Shallow (compress d root).kids (compress d root).size root :=
    h.owner_compress.shallow.of_subset fun y _ => (compress d root).kids_sub y
  refine (mem_descendants_iff hshallow).mpr ⟨hmet (h.reaches_compress hs) ?_, ?_⟩
  · rintro rfl
    rw [h.kind_eq] at hk
    cases hk
  · rw [(compress_rewrites d).kind_eq, hk]
    exact mem_cons_self

omit ho in
/-- **Where the braces of a script meet:** in scopes that start with blanks in front of a scope. -/
theorem IsRead.bracesMeet_iff (hspread : Spread (compress d root) ds root a b')
    (hkinds : ∀ y, a.kind y ∈ nodeKinds) (hs : Reaches d.refs root s) (hk : d.kind s = .scope) :
    BracesMeet a s ↔ OpensBehindBlank d s := by
  have hu := h.owner_compress
  obtain ⟨l, hl⟩ := h.branches_scope hs hk
  have hplain : PlainScope (compress d root) root s :=
    ⟨h.reaches_compress hs, by rw [(compress_rewrites d).kind_eq, hk], h.payload_compress s⟩
  have hl' : (compress d root).branches s = [l.map .node] := by
    have hnode := (compress_pressed h.isSplit).other s hs ?_ (by rw [hk]; decide) (by rw [hk]; decide)
    · rw [Document.branches, hnode]
      exact hl
    · rintro rfl
      rw [h.kind_eq] at hk
      cases hk
  -- a scope without a space in front
  have hmeet : a.branches s = [l.map .node] →
      (BracesMeet a s ↔ firstChar (a.text (l.map .node)) = some '\x7b') := by
    intro hb
    refine bracesMeet_iff_of_eq ?_
    obtain ⟨hlist, hbranch⟩ := IsList.of_branches (h.shallow_opened hds hspread.toOpened hs)
      (h.payload_opened hds hspread.toOpened hs (by rw [hk]; decide)) hb
    rw [outputOf_eq_sourceOf hkinds, hlist.source_eq, hbranch, h.kind_opened hspread.toOpened hs, hk]
    rfl
  constructor
  · intro hbraces
    have hb := hspread.branches_of_bracesMeet hds hu hplain hl' hbraces
    obtain ⟨f, tail, hf, hfirst⟩ := hspread.first_of_bracesMeet hds hu hplain hl'
      (hspread.apart s (h.mem_descendants hs hk)) hbraces
    obtain ⟨run, y, rest, rfl, hrun, hy⟩ :=
      (h.firstChar_text hds hspread.toOpened hs hk hl).mp ((hmeet hb).mp hbraces)
    cases run with
    | nil =>
      -- then the first token starts with a brace
      obtain ⟨rfl, -⟩ := List.cons.inj hf
      obtain ⟨hreached, hne⟩ := h.below_scope hs hl (y := y) (by simp)
      obtain ⟨c, hc, hbrace⟩ := h.firstChar_token hds hspread.toOpened hreached hne (by rw [hy]; decide)
      refine absurd ?_ hfirst
      rw [text, branch_cons_node, firstChar_append, hc, hbrace.mpr hy]
      rfl
    | cons z run => exact ⟨z, run, y, rest, hl, hrun, hy⟩
  · rintro ⟨z, run, y, rest, heq, hrun, hy⟩
    obtain rfl : l = z :: run ++ y :: rest := by
      rw [← nodes_map_node l, (List.cons.inj (hl.symm.trans heq)).1, nodes_map_node]
    have hsame := newScript_of_ne hds hu (x := s) (by rw [hplain.kind_eq]; decide)
    have hclosed : opensWithBrace (newScript (compress d root) ds root) s = false := by
      have hz := h.sourceOf_lead hds (opened_start hds hu) hs hk hl rfl hrun (by simp [hy]) mem_cons_self
      rw [Document.branches] at hl'
      rw [opensWithBrace, children, Node.children, hsame, hl']
      simp [hz]
    have hb : a.branches s = [(z :: run ++ y :: rest).map .node] := by
      rw [Document.branches, hspread.kept s hplain hclosed, hsame]
      exact hl'
    exact (hmeet hb).mpr ((h.firstChar_text hds hspread.toOpened hs hk hl).mpr ⟨_, y, rest, rfl, hrun, hy⟩)

end Read

/-! ### Braces in the output -/

/-- **Where braces meet.** In a script that has been compiled from a source the brace that opens a
scope is followed by another one exactly if the first token of the scope, blanks left out, is a scope,
with a blank in front of it. In any script that has been minified that is so only if the first fragment
of the scope does not start with a brace itself. -/
theorem braces_at_openings {path source out : String}
    (h : language.compileSource path source = .ok out) :
    (∃ d a, grammar.tokenize [] [] root (ofSource path source) = .ok () d ∧
      process [] [] root (ofSource path source) = .ok () a ∧ a.output = out ∧
      ∀ s < d.size, d.kind s = .scope → (BracesMeet a s ↔ OpensBehindBlank d s)) ∧
    ∀ (d a : Document) (script : NodeId) (report : Report), d.UniqueOwner script →
      (∀ x, Reaches d.refs script x → (d.node x).naming? = none) →
      (∀ s ∈ d.descendants script [.scope] [], (d.node s).payload = .none) →
      minify script d = .ok report a → ∀ s ∈ d.descendants script [.scope] [],
        ∀ b, d.branches s = [b] → BracesMeet a s →
          ∃ f rest, b = f :: rest ∧ firstChar (a.text [f]) ≠ some '\x7b' := by
  refine ⟨?_, fun d a script report hu hn hplain hmin s hs b hb hmeet => ?_⟩
  · obtain ⟨a, hprocess, hout⟩ := compileSource_eq_ok.mp h
    obtain ⟨d, ds, htokens, hds, rfl⟩ := process_eq_ok hprocess
    have hd := isRead_of_tokenize htokens
    obtain ⟨b', hspread⟩ := exists_spread hds hd.owner_compress (fun x _ => hd.naming?_compress x)
      fun x _ => hd.payload_compress x
    exact ⟨d, _, htokens, hprocess, hout, fun s hs hk =>
      hd.bracesMeet_iff hds hspread (compiled_of_isRead hd hds).kind_mem (hd.reached s hs) hk⟩
  · obtain ⟨ds, hds, -, rfl⟩ := minify_eq_ok hmin
    obtain ⟨b', hspread⟩ := exists_spread hds hu hn hplain
    have hscope : PlainScope d script s := ⟨reaches_of_enc (encloses_of_descendant hs),
      by simpa [hasKind] using (List.mem_filter.mp hs).2, hplain s hs⟩
    exact hspread.first_of_bracesMeet hds hu hscope hb (hspread.apart s hs) hmeet

/-- A line break behind a comment leaves two braces next to each other. -/
theorem braces_at_openings_comment : ∃ out d a,
    language.compileSource "s" "\x7b//\n\x7b\x7d\x7d" = .ok out ∧ out = "\x7b\x7b\x7d\x7d" ∧
      a.output = out ∧ OpensBehindBlank d 1 ∧ BracesMeet a 1 := by
  have hok : succeeds (process [] [] root) (ofSource "s" "\x7b//\n\x7b\x7d\x7d") (fun _ a =>
      a.output == "\x7b\x7b\x7d\x7d") = true := by
    decide +kernel
  have htok : succeeds (grammar.tokenize [] [] root) (ofSource "s" "\x7b//\n\x7b\x7d\x7d") (fun _ d =>
      decide (d.size = 4 ∧ d.branches 1 = [[2, 3].map .node] ∧ d.kind 1 = .scope ∧
        d.kind 2 = .scriptSpace ∧ d.kind 3 = .scope)) = true := by
    decide +kernel
  obtain ⟨_, a, ha, hout⟩ := of_succeeds hok
  obtain ⟨_, d, hd, hcheck⟩ := of_succeeds htok
  obtain ⟨hsize, hb, hscope, hblank, hinner⟩ := of_decide_eq_true hcheck
  have hcompiled : language.compileSource "s" "\x7b//\n\x7b\x7d\x7d" = .ok a.output :=
    compileSource_eq_ok.mpr ⟨a, ha, rfl⟩
  obtain ⟨⟨d', a', hd', ha', hout', hmeet⟩, -⟩ := braces_at_openings hcompiled
  rw [hd] at hd'
  cases hd'
  have hopens : OpensBehindBlank d 1 := ⟨2, [], 3, [], hb, by simpa using hblank, hinner⟩
  exact ⟨_, d, a', hcompiled, by simpa using hout, hout', hopens,
    (hmeet 1 (by rw [hsize]; decide) hscope).mpr hopens⟩

end Script

end Stencil
