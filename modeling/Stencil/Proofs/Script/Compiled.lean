import Stencil.Proofs.Lexing.Locations
import Stencil.Proofs.Script.Blanks
import Stencil.Proofs.Script.Mirroring
import Stencil.Proofs.Script.Reading

/-!
# The lists of a compiled script

A script that has been read is a tree of lists, and each list is read from its own part of the source
(`IsRead.list`). Compiling keeps the tokens of every list in their order: only some spaces come in front
of them, and of a run of blanks between two tokens stays what `gap` says (`Compiled`).
-/

namespace Stencil

open Document List String

variable {a : Document} {b : Branch} {path source : String}

namespace Script

open Document

variable {d : Document} {p : Place} {s : List Char} {l : List (Option NodeId)} {x y : NodeId}

/-! ### Where tokens are read -/

theorem nodes_map_node (l : List NodeId) : Branch.nodes (l.map .node) = l := by
  rw [Branch.nodes, filterMap_map]
  exact filterMap_some

theorem refs_of_branches (hp : (d.node x).payload = .none) (hb : d.branches x = [b]) :
    d.refs x = b.nodes := by
  rw [branches] at hb
  rw [refs, Node.references, Node.body, Node.body?, hp, hb]
  simp

theorem Reads.inside (h : Reads d p s l) (hp : ∀ x, (d.node x).payload = .none)
    (hx : x ∈ l.reduceOption) (hy : Reaches d.refs x y) :
    ∃ left t right, s = left ++ (t ++ right) ∧ Reads d (p.advance left) t [some y] := by
  -- what is found behind the first entry
  have hlater : ∀ {p : Place} {s t : List Char}, (∃ left u right, t = left ++ (u ++ right) ∧
      Reads d ((p.advance s).advance left) u [some y]) → ∃ left u right, s ++ t = left ++ (u ++ right) ∧
      Reads d (p.advance left) u [some y] := by
    rintro p s t ⟨left, u, right, rfl, hu⟩
    refine ⟨s ++ left, u, right, (List.append_assoc ..).symm, ?_⟩
    rwa [Place.advance_append]
  -- a token that holds no others
  have hleaf : ∀ {x : NodeId} {u : List Char}, d.branches x = [textBranch u] →
      Reaches d.refs x y → y = x := by
    intro x u hb hy
    rcases hy.eq_or_child with heq | ⟨c, hc, -⟩
    · exact heq.symm
    · rw [refs_of_branches (hp x) hb, nodes_textBranch] at hc
      cases hc
  induction h generalizing x with
  | nil => cases hx
  | comment _ _ ih => exact hlater (ih hx hy)
  | @word p s t x' l hw hplace hb _ ih =>
    rw [reduceOption_cons_of_some] at hx
    rcases List.mem_cons.mp hx with rfl | hx
    · obtain rfl := hleaf hb hy
      have hread := Reads.word hw hplace hb .nil
      rw [append_nil] at hread
      exact ⟨[], s, t, rfl, hread⟩
    · exact hlater (ih hx hy)
  | @quoted p _ _ s t _ _ x' l hk hq hs hplace hb _ ih =>
    rw [reduceOption_cons_of_some] at hx
    rcases List.mem_cons.mp hx with rfl | hx
    · obtain rfl := hleaf hb hy
      have hread := Reads.quoted hk hq hs hplace hb .nil
      rw [append_nil] at hread
      exact ⟨[], s, t, rfl, hread⟩
    · exact hlater (ih hx hy)
  | @bracketed p opening inner closing s t x' l m ho hc hs hplace hb hinner _ ihinner ih =>
    rw [reduceOption_cons_of_some] at hx
    rcases List.mem_cons.mp hx with rfl | hx
    · rcases hy.eq_or_child with rfl | ⟨c, hchild, hy⟩
      · have hread := Reads.bracketed ho hc hs hplace hb hinner .nil
        rw [append_nil] at hread
        exact ⟨[], s, t, rfl, hread⟩
      · rw [refs_of_branches (hp x) hb, nodes_listBranch] at hchild
        obtain ⟨left, u, right, rfl, hu⟩ := ihinner hchild hy
        refine ⟨opening ++ left, u, right ++ (closing ++ t), ?_, ?_⟩
        · rw [hs]
          simp only [List.append_assoc]
        · rwa [Place.advance_append]
    · exact hlater (ih hx hy)

structure IsRead (path source : String) (d : Document) : Prop extends d.IsTokens where
  single : ∀ x, (d.branches x).length = 1
  reached : ∀ x < d.size, Reaches d.refs root x
  reads : ∃ l, d.branches root = [listBranch l] ∧ Reads d (.startOf path) source.toList l

theorem isRead_of_tokenize
    (h : grammar.tokenize [] [] root (ofSource path source) = .ok () d) : IsRead path source d := by
  obtain ⟨-, hsteady⟩ := Grammar.tokenize_tended (grove_ofSource path source) .refl h
  refine ⟨Grammar.isTokens_of_tokenize h, fun x => ?_, fun x hx => ?_, reads_of_tokenize h⟩
  · exact hsteady.single x (length_ofSource path source x)
  · by_cases hroot : x = root
    · rw [hroot]
    · have hsize : (ofSource path source).size = 1 := by rw [ofSource_eq]; rfl
      have hle : (ofSource path source).size ≤ x := by
        rw [hsize]
        exact Nat.one_le_iff_ne_zero.mpr hroot
      exact (Grammar.reaches_of_tokenize (grove_ofSource path source) h hle hx).mono d.kids_sub

namespace IsRead

variable (h : IsRead path source d)
include h

theorem refs_eq (x : NodeId) : d.refs x = (d.branch x 0).nodes := by
  obtain ⟨b, hb⟩ := length_eq_one_iff.mp (h.single x)
  rw [refs_of_branches (h.payload_eq x) hb, branch, Node.branch, ← branches, hb]
  rfl

theorem token (hy : Reaches d.refs root y) (hne : y ≠ root) : ∃ left t right,
    source.toList = left ++ (t ++ right) ∧ Reads d ((Place.startOf path).advance left) t [some y] := by
  obtain ⟨l, hb, hread⟩ := h.reads
  rcases hy.eq_or_child with heq | ⟨c, hc, hy⟩
  · exact absurd heq.symm hne
  · rw [refs_of_branches (h.payload_eq root) hb, nodes_listBranch] at hc
    exact hread.inside h.payload_eq hc hy

theorem list (hy : Reaches d.refs root y) (hrefs : d.refs y ≠ []) :
    (y = root ∨ isBracketed (d.kind y) = true) ∧ ∃ left t right m,
      source.toList = left ++ (t ++ right) ∧ d.branches y = [listBranch m] ∧
      Reads d ((Place.startOf path).advance left) t m := by
  by_cases hne : y = root
  · obtain ⟨l, hb, hread⟩ := h.reads
    exact ⟨.inl hne, [], source.toList, [], l, (append_nil _).symm, hne ▸ hb, hread⟩
  · obtain ⟨left, t, right, hsource, hread⟩ := h.token hy hne
    generalize hl : [some y] = l at hread
    cases hread with
    | nil => cases hl
    | comment => cases hl
    | word _ _ hb =>
      cases hl
      rw [refs_of_branches (h.payload_eq y) hb, nodes_textBranch] at hrefs
      exact absurd rfl hrefs
    | quoted _ _ _ _ hb =>
      cases hl
      rw [refs_of_branches (h.payload_eq y) hb, nodes_textBranch] at hrefs
      exact absurd rfl hrefs
    | @bracketed _ opening inner closing s t _ _ m ho _ hs _ hb hinner _ =>
      cases hl
      refine ⟨.inr ho.bracketed, left ++ opening, inner, closing ++ (t ++ right), m, ?_, hb, ?_⟩
      · rw [hsource, hs]
        simp only [List.append_assoc]
      · rwa [Place.advance_append]

theorem isBracketed_or_root (hy : Reaches d.refs root y) (hrefs : d.refs y ≠ []) :
    d.kind y = .root ∨ isBracketed (d.kind y) = true :=
  (h.list hy hrefs).1.imp_left fun (heq : y = root) => by rw [heq, h.kind_eq]

theorem isSplit : IsSplit d where
  grove := h.grove
  single := h.single
  refs_eq := h.refs_eq
  leaf x hx hk := by
    by_contra hrefs
    have hlist := h.isBracketed_or_root hx hrefs
    rcases hk with hk | hk <;> rw [hk] at hlist <;> simp [isBracketed] at hlist

end IsRead

def nodeKinds : List Kind :=
  [.root, .scope, .parentheses, .squareBrackets, .doubleQuoted, .singleQuoted, .keyword,
    .identifier, .number, .operator, .scriptSpace, .regex, .requiredSpace]

theorem IsRead.kind_mem (h : IsRead path source d) (y : NodeId) : d.kind y ∈ nodeKinds := by
  by_cases hlt : y < d.size
  · by_cases hne : y = root
    · rw [hne, h.kind_eq]
      decide
    · obtain ⟨_, _, _, -, hread⟩ := h.token (h.reached y hlt) hne
      generalize hl : [some y] = l at hread
      cases hread with
      | nil => cases hl
      | comment => cases hl
      | word hw =>
        cases hl
        generalize d.kind y = k at hw
        cases hw <;> decide
      | quoted hk =>
        cases hl
        generalize d.kind y = k at hk
        cases hk <;> decide
      | bracketed ho =>
        cases hl
        have hb := ho.bracketed
        generalize d.kind y = k at hb
        cases k <;> simp [isBracketed, nodeKinds] at hb ⊢
  · rw [kind, node_of_le (not_lt.mp hlt)]
    decide

/-! ### Spaces in front of lists -/

/-- Some lists have got spaces in front, and nothing else has changed. -/
structure Fronted (a a' : Document) : Prop where
  size_le : a.size ≤ a'.size
  branches : ∀ x < a.size, ∀ b, a.branches x = [b] →
    ∃ l : List NodeId, (∀ z ∈ l, a.size ≤ z) ∧ a'.branches x = [l.map .node ++ b]
  kind_eq : ∀ x < a.size, a'.kind x = a.kind x
  new_kind : ∀ x, a.size ≤ x → a'.kind x = .root ∨ a'.kind x = .requiredSpace

namespace Fronted

variable {a' : Document} {scope : NodeId}

theorem refl (a : Document) : Fronted a a where
  size_le := le_refl _
  branches x _ b hb := ⟨[], by simp, hb⟩
  kind_eq _ _ := rfl
  new_kind x hx := .inl (by rw [kind, node_of_le hx])

theorem openScope (h : Fronted a a') (hlt : scope < a.size) : Fronted a (openScope a' scope) where
  size_le := by
    rw [size_openScope]
    exact Nat.le_succ_of_le h.size_le
  branches x hx b hb := by
    obtain ⟨l, hnew, hl⟩ := h.branches x hx b hb
    by_cases hne : x = scope
    · subst hne
      refine ⟨a'.size :: l, forall_mem_cons.mpr ⟨h.size_le, hnew⟩, ?_⟩
      rw [Document.branches] at hl
      rw [Document.branches, openScope_scope (lt_of_lt_of_le hx h.size_le),
        Node.setBranch_zero, Node.branch_zero, Node.children, hl]
      rfl
    · rw [Document.branches, openScope_of_lt (lt_of_lt_of_le hx h.size_le) hne]
      exact ⟨l, hnew, hl⟩
  kind_eq x hx := by
    rw [← h.kind_eq x hx]
    by_cases hne : x = scope
    · subst hne
      rw [kind, openScope_scope (lt_of_lt_of_le hx h.size_le)]
      rfl
    · rw [kind, openScope_of_lt (lt_of_lt_of_le hx h.size_le) hne]
      rfl
  new_kind x hx := by
    rcases Nat.lt_trichotomy x a'.size with hlt' | rfl | hgt
    · rw [kind, openScope_of_lt hlt' (ne_of_gt (lt_of_lt_of_le hlt hx))]
      exact h.new_kind x hx
    · have hne : a'.size ≠ scope := ne_of_gt (lt_of_lt_of_le hlt hx)
      rw [kind, Script.openScope, prepend, setBranch, modify_ne hne,
        Document.appendText, if_neg (by decide), Document.append, modify_self (by simp),
        create_self]
      exact .inr rfl
    · rw [kind, node_of_le (by rw [size_openScope]; exact hgt)]
      exact .inl rfl

theorem foldl {l : List NodeId} (h : Fronted a a') (hl : ∀ s ∈ l, s < a.size) : Fronted a
    (l.foldl (fun d s => if opensWithBrace d s then Script.openScope d s else d) a') := by
  refine List.foldlRecOn (motive := Fronted a) l _ h fun e he s hs => ?_
  split_ifs
  · exact he.openScope (hl s hs)
  · exact he

end Fronted

/-! ### The compiled script -/

/-- A node that is written as a list, with or without brackets. -/
structure IsList (a : Document) (p : NodeId) : Prop where
  payload_eq : (a.node p).payload = .none
  source_eq : a.sourceOf p = (a.kind p).opener ++ a.text (a.branch p 0) ++ (a.kind p).closer

theorem IsList.of_branches (hs : Shallow a.uses a.size x)
    (hp : (a.node x).payload = .none) (hb : a.branches x = [b]) : IsList a x ∧ a.branch x 0 = b := by
  have hbranch : a.branch x 0 = b := by
    rw [branches] at hb
    rw [branch, Node.branch, hb]
    rfl
  refine ⟨⟨hp, ?_⟩, hbranch⟩
  rw [sourceOf_eq hs, write_of_none hp, writeBranches, hb, hbranch]
  simp only [map_cons, map_nil, join_cons, join_nil, append_empty]
  rfl

theorem text_of_empty {l : List NodeId} (h : ∀ z ∈ l, a.sourceOf z = "") :
    a.text (l.map .node) = "" := by
  induction l with
  | nil => rfl
  | cons z l ih =>
    obtain ⟨hz, hl⟩ := forall_mem_cons.mp h
    have hrest := ih hl
    rw [text] at hrest ⊢
    rw [map_cons, branch_cons_node, hz, hrest]
    rfl

theorem Holds.text_eq {run : List NodeId} {t : String} (h : Holds a run t)
    (hk : ∀ x ∈ run, a.kind x = .scriptSpace) (hp : ∀ x ∈ run, (a.node x).payload = .none) :
    a.text (run.map .node) = t := by
  have hsource : ∀ x ∈ run, ∀ u, a.branches x = [[.text u]] → a.sourceOf x = u := fun x hx u hb => by
    refine IsText.sourceOf_eq ⟨?_, hp x hx, hb⟩
    rw [← kind, hk x hx]
    rfl
  cases h with
  | nil => rfl
  | @cons x xs t hx hxs =>
    have hemp := text_of_empty fun y hy => hsource y (mem_cons_of_mem _ hy) "" (hxs y hy)
    rw [text] at hemp ⊢
    rw [map_cons, branch_cons_node, hemp, hsource x mem_cons_self t hx, append_empty]

structure Compiled (d a : Document) : Prop where
  kind_eq : a.kind root = .root
  kind_mem : ∀ y, a.kind y ∈ nodeKinds
  list : ∀ p, Reaches d.refs root p → d.refs p ≠ [] →
    IsList a p ∧ ∃ l : List NodeId, a.branch p 0 = l.map .node ++ d.branch p 0
  spaced : ∀ p, Reaches d.refs root p → ∀ (pre post : Branch) (x c : NodeId) (run : List NodeId),
    d.branch p 0 = pre ++ .node x :: (run.map .node ++ .node c :: post) →
    d.kind x ≠ .scriptSpace → d.kind c ≠ .scriptSpace → (∀ z ∈ run, d.kind z = .scriptSpace) →
    a.text (run.map .node) = gap d x run c

theorem newScript_of_ne {ds : List Declaration} {script : NodeId}
    (hds : declarations d script = .ok ds) (hu : d.UniqueOwner script)
    (hk : d.kind x ≠ .identifier) : (newScript d ds script).node x = d.node x := by
  rcases role_cases hds hu x with ⟨r, hr, rfl⟩ | ⟨t, hl⟩ | ⟨hd, hl⟩
  · exact absurd (located_of_renaming hds hr).2 hk
  · exact absurd (kind_of_mem_linksOf hds hl) hk
  · exact newScript_of_not_mem hd hl

section Compress

variable (h : IsRead path source d)
include h

theorem IsRead.owner_compress : (compress d root).UniqueOwner root :=
  h.uniqueOwner.of_sublist (compress_rewrites d).thinned.size_eq (compress_rewrites d).thinned.refs_sublist

theorem IsRead.payload_compress (x : NodeId) : ((compress d root).node x).payload = .none := by
  rw [(compress_rewrites d).payload_eq, h.payload_eq]

theorem IsRead.naming?_compress (x : NodeId) : ((compress d root).node x).naming? = none := by
  rw [Node.naming?, h.payload_compress]

theorem IsRead.node_compress (hy : Reaches d.refs root y) (hrefs : d.refs y ≠ []) :
    (compress d root).node y = d.node y := by
  by_cases hne : y = root
  · rw [hne, node_compress_root h.isSplit]
  · have hlist := h.isBracketed_or_root hy hrefs
    refine (compress_pressed h.isSplit).other y hy hne ?_ ?_ <;>
      intro hk <;> rw [hk] at hlist <;> simp [isBracketed] at hlist

theorem IsRead.reaches_compress (hy : Reaches d.refs root y) :
    Reaches (compress d root).refs root y := by
  induction hy with
  | refl => exact .refl
  | @tail q y hq hy ih =>
    refine ih.tail ?_
    rw [refs, h.node_compress hq (ne_nil_of_mem hy)]
    exact hy

end Compress

theorem process_eq_ok (h : process [] [] root (ofSource path source) = .ok () a) :
    ∃ d ds, grammar.tokenize [] [] root (ofSource path source) = .ok () d ∧
      declarations (compress d root) root = .ok ds ∧
      a = separateBraces (newScript (compress d root) ds root) root := by
  obtain ⟨_, d, htok, h⟩ := bind_eq_ok.mp h
  obtain ⟨_, d', happly, h⟩ := bind_eq_ok.mp h
  obtain ⟨report, d'', hmin, hpure⟩ := bind_eq_ok.mp h
  cases happly
  cases hpure
  obtain ⟨ds, hds, -, rfl⟩ := minify_eq_ok hmin
  exact ⟨d, ds, htok, hds, rfl⟩

theorem compiled_of_isRead (h : IsRead path source d)
    {ds : List Declaration} (hds : declarations (compress d root) root = .ok ds) :
    Compiled d (separateBraces (newScript (compress d root) ds root) root) := by
  have hrewrites := compress_rewrites d
  have hu := h.owner_compress
  have hn : ∀ x, Reaches (compress d root).refs root x →
      ((compress d root).node x).naming? = none := fun x _ => h.naming?_compress x
  obtain ⟨spaced, -, hsep, -⟩ := exists_sourceOf_eq hds hu hn
  set e := newScript (compress d root) ds root with he
  have hsize : e.size = d.size := by rw [he, size_newScript, hrewrites.thinned.size_eq]
  have hkind : ∀ x, e.kind x = d.kind x := fun x => by rw [he, kind_newScript, hrewrites.kind_eq]
  have hnode : ∀ x, d.kind x ≠ .identifier → e.node x = (compress d root).node x := fun x hk =>
    newScript_of_ne hds hu (by rwa [hrewrites.kind_eq])
  have hfront : Fronted e (separateBraces e root) := by
    refine (Fronted.refl e).foldl fun s hs => ?_
    rw [he, scopes_newScript] at hs
    rw [hsize]
    have := hu.lt_size (reaches_of_enc (encloses_of_below (mem_filter.mp hs).1))
    rwa [hrewrites.thinned.size_eq] at this
  have hroot : root < e.size := by
    rw [hsize]
    exact h.uniqueOwner.lt_size .refl
  refine ⟨?_, fun y => ?_, fun p hp hrefs => ?_, fun p hp pre post x c run hb hx hc hrun => ?_⟩
  · rw [hfront.kind_eq root hroot, hkind, h.kind_eq]
  · by_cases hy : y < e.size
    · rw [hfront.kind_eq y hy, hkind]
      exact h.kind_mem y
    · rcases hfront.new_kind y (not_lt.mp hy) with hk | hk <;> rw [hk] <;> decide
  · have hlt : p < e.size := by
      rw [hsize]
      exact h.uniqueOwner.lt_size hp
    have hid : d.kind p ≠ .identifier := fun hk => by
      have hlist := h.isBracketed_or_root hp hrefs
      rw [hk] at hlist
      simp [isBracketed] at hlist
    have hbranches : e.branches p = [d.branch p 0] := by
      obtain ⟨b, hb⟩ := length_eq_one_iff.mp (h.single p)
      rw [branches, hnode p hid, h.node_compress hp hrefs, branch, Node.branch, ← branches, hb]
      rfl
    obtain ⟨l, -, hl⟩ := hfront.branches p hlt _ hbranches
    obtain ⟨hlist, hbranch⟩ := IsList.of_branches
      (shallow_uses hds hu hn hsep (.inl (h.reaches_compress hp)))
      (by rw [hsep.payload_eq p hlt, hnode p hid, h.payload_compress]) hl
    exact ⟨hlist, l, hbranch⟩
  · have hmem : ∀ z ∈ run, z < e.size := fun z hz => by
      rw [hsize]
      refine h.grove.lt_of_refs (x := p) ?_
      rw [h.refs_eq, hb]
      simp [nodes_map_node, hz]
    have hsame : ∀ z ∈ run, (separateBraces e root).node z = (compress d root).node z :=
      fun z hz => by
        rw [(hsep.other z (hmem z hz) (by rw [hkind, hrun z hz]; decide)).1,
          hnode z (by rw [hrun z hz]; decide)]
    refine ((compress_gap h.isSplit hp hb hx hc hrun).congr hsame).text_eq (fun z hz => ?_) fun z hz => ?_
    · rw [hfront.kind_eq z (hmem z hz), hkind, hrun z hz]
    · rw [hsame z hz, h.payload_compress]

/-! ### Where a list lies -/

/-- What is written for the list of a node lies in a branch, between two texts. -/
structure Lies (a : Document) (p : NodeId) (b : Branch) (before after : String) : Prop where
  stands : ∀ {pre x}, a.Stands (a.branch p 0) pre x → a.Stands b (before ++ pre) x
  text_eq : a.text b = before ++ a.text (a.branch p 0) ++ after

section Lies

variable {q : NodeId} {before after before' after' : String}

theorem Lies.self (a : Document) (p : NodeId) : Lies a p (a.branch p 0) "" "" :=
  ⟨fun hs => by rwa [empty_append], by rw [empty_append, append_empty]⟩

theorem Lies.trans (h : Lies a x b before after) (h' : Lies a y (a.branch x 0) before' after') :
    Lies a y b (before ++ before') (after' ++ after) where
  stands hs := by
    rw [String.append_assoc]
    exact h.stands (h'.stands hs)
  text_eq := by
    rw [h.text_eq, h'.text_eq]
    simp only [String.append_assoc]

theorem stands_append {pre : String} (b' : Branch) (hs : a.Stands b pre x) :
    a.Stands (b' ++ b) (a.text b' ++ pre) x := by
  induction b' with
  | nil => rwa [nil_append, text, writeBranch_nil, empty_append]
  | cons f b' ih =>
    cases f with
    | text s =>
      rw [text, branch_cons_text, String.append_assoc]
      exact .skipText ih
    | node q =>
      rw [text, branch_cons_node, String.append_assoc]
      exact .skipNode ih

theorem IsList.lies (h : IsList a x) (hx : x ∈ b.nodes) : ∃ before after, Lies a x b before after := by
  induction b with
  | nil => cases hx
  | cons f b ih =>
    cases f with
    | text s =>
      obtain ⟨before, after, hl⟩ := ih hx
      refine ⟨s ++ before, after, ⟨fun hs => ?_, ?_⟩⟩
      · rw [String.append_assoc]
        exact .skipText (hl.stands hs)
      · have htext := hl.text_eq
        rw [text] at htext ⊢
        rw [branch_cons_text, htext]
        simp only [String.append_assoc]
    | node q =>
      rcases List.mem_cons.mp hx with rfl | hx
      · have hlead : a.lead x 0 = (a.kind x).opener := by
          rw [lead_of_none h.payload_eq]
          exact append_empty
        refine ⟨(a.kind x).opener, (a.kind x).closer ++ a.text b, ⟨fun hs => ?_, ?_⟩⟩
        · rw [← hlead]
          exact .inside hs
        · rw [text, branch_cons_node, h.source_eq]
          simp only [String.append_assoc]
      · obtain ⟨before, after, hl⟩ := ih hx
        refine ⟨a.sourceOf q ++ before, after, ⟨fun hs => ?_, ?_⟩⟩
        · rw [String.append_assoc]
          exact .skipNode (hl.stands hs)
        · have htext := hl.text_eq
          rw [text] at htext ⊢
          rw [branch_cons_node, htext]
          simp only [String.append_assoc]

end Lies

section Output

theorem outputOf_eq_sourceOf (h : ∀ y, a.kind y ∈ nodeKinds) (x : NodeId) :
    a.outputOf x = a.sourceOf x := by
  have hmanner : ∀ write y, Output.manner a write y = none := by
    intro write y
    have hk := h y
    simp only [Output.manner]
    generalize a.kind y = k at hk
    simp only [nodeKinds, List.mem_cons, not_mem_nil, or_false] at hk
    rcases hk with rfl | rfl | rfl | rfl | rfl | rfl | rfl | rfl | rfl | rfl | rfl | rfl | rfl <;> rfl
  have hwrite : ∀ n x, a.writeNode Output.manner n x = a.writeNode (fun _ _ _ => none) n x := by
    intro n
    induction n with
    | zero => exact fun _ => rfl
    | succ n ih =>
      intro x
      rw [writeNode, writeNode, hmanner, funext ih]
  exact hwrite a.size x

theorem Compiled.output_eq (h : Compiled d a) (hrefs : d.refs root ≠ []) :
    a.output = a.text (a.branch root 0) := by
  rw [output, outputOf_eq_sourceOf h.kind_mem, (h.list root .refl hrefs).1.source_eq, h.kind_eq]
  exact (append_empty).trans (empty_append)

theorem Compiled.lies (h : Compiled d a) (hread : IsRead path source d)
    (hy : Reaches d.refs root y) (hrefs : d.refs y ≠ []) :
    ∃ before after, Lies a y (a.branch root 0) before after := by
  induction hy with
  | refl => exact ⟨"", "", .self a root⟩
  | @tail q y hq hy ih =>
    obtain ⟨before, after, hl⟩ := ih (ne_nil_of_mem hy)
    obtain ⟨-, l, hbranch⟩ := h.list q hq (ne_nil_of_mem hy)
    obtain ⟨before', after', hl'⟩ := (h.list y (hq.tail hy) hrefs).1.lies (b := a.branch q 0) (by
      rw [hbranch, Branch.nodes_append, ← hread.refs_eq]
      exact mem_append_right _ hy)
    exact ⟨_, _, hl.trans hl'⟩

end Output

end Script

end Stencil
