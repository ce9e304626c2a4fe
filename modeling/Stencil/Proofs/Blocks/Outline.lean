import Stencil.Proofs.Blocks.Nesting

/-!
# Which blocks stay open

A list of nodes with keys can be read without any document: a node opens a block, closes the innermost
one, goes on to another of its branches, or is kept (`scan`). Nesting goes through the lists of a node
in order, and before the end of a list through those of the nodes that it keeps there (`lists`).
-/

namespace Stencil

open List

variable {d : Document} {id x : NodeId}

namespace Document

variable {e e' e'' : Document} {S T : List NodeId} {y : NodeId} {f : Node → Node}

/-- What has changed from `e` to `e'` is, in `d`, below the given nodes. -/
structure Within (d e e' : Document) (tops : List NodeId) : Prop where
  size_eq : e'.size = e.size
  node_eq : ∀ x, (∀ c ∈ tops, ¬ Reaches d.refs c x) → e'.node x = e.node x

namespace Within

theorem refl (d e : Document) (T : List NodeId) : d.Within e e T :=
  ⟨rfl, fun _ _ => rfl⟩

theorem mono (h : d.Within e e' S) (hsub : ∀ c ∈ S, ∃ t ∈ T, Reaches d.refs t c) : d.Within e e' T :=
  ⟨h.size_eq, fun x hx => h.node_eq x fun c hc hr => by
    obtain ⟨t, ht, htc⟩ := hsub c hc
    exact hx t ht (htc.trans hr)⟩

theorem trans (h : d.Within e e' T) (h' : d.Within e' e'' T) : d.Within e e'' T :=
  ⟨h'.size_eq.trans h.size_eq, fun x hx => (h'.node_eq x hx).trans (h.node_eq x hx)⟩

theorem modify (h : x ∈ T) : d.Within e (e.modify x f) T :=
  ⟨size_modify _ _ _, fun _ hy => modify_ne fun heq => hy x h (heq ▸ .refl)⟩

theorem frame (h : d.Within e e' T) (hf : d.Frame e S)
    (hapart : ∀ y ∈ S, ∀ z, Reaches d.refs y z → ∀ c ∈ T, ¬ Reaches d.refs c z) : d.Frame e' S :=
  ⟨h.size_eq ▸ hf.size_le, fun y hy z hz =>
    (h.node_eq z (hapart y hy z hz)).trans (hf.node_eq y hy z hz)⟩

end Within

end Document

/-- A block that has been opened and the markers it still waits for. -/
structure Awaiting (κ : Type) where
  node : NodeId
  kind : Kind
  separators : List κ
  closer : κ

namespace Nesting

variable {κ : Type} [DecidableEq κ]

/-- The blocks that are open behind a node, the innermost first; none if the node is kept. A key that
opens a block always does. Else the innermost block decides: its closing key closes it, and a separator
that it waits for starts another branch. -/
def openBehind (t : BlockTable κ) (opened : List (Awaiting κ)) (id : NodeId) (key : κ) :
    Option (List (Awaiting κ)) :=
  match t.get? key with
  | some rule => some
      ({ node := id, kind := rule.kind, separators := rule.separators, closer := rule.closer } ::
        opened)
  | none =>
    match opened with
    | [] => none
    | a :: outer =>
      if a.closer = key then some outer
      else if key ∈ a.separators then
        some ({ a with separators := (a.separators.dropWhile (· ≠ key)).tail } :: outer)
      else none

theorem openBehind_of_some {t : BlockTable κ} {opened : List (Awaiting κ)} {key : κ}
    {rule : BlockRule κ} (h : t.get? key = some rule) : openBehind t opened id key =
      some (⟨id, rule.kind, rule.separators, rule.closer⟩ :: opened) := by
  rw [openBehind.eq_def, h]

theorem openBehind_nil {t : BlockTable κ} {key : κ} (h : t.get? key = none) :
    openBehind t [] id key = none := by
  rw [openBehind, h]

theorem openBehind_cons {t : BlockTable κ} {a : Awaiting κ} {outer : List (Awaiting κ)}
    {key : κ} (h : t.get? key = none) : openBehind t (a :: outer) id key =
      if a.closer = key then some outer
      else if key ∈ a.separators then
        some ({ a with separators := (a.separators.dropWhile (· ≠ key)).tail } :: outer)
      else none := by
  rw [openBehind, h]

structure Scan (κ : Type) where
  /-- The nodes that are no markers, in order. -/
  kept : List NodeId := []
  /-- The blocks that are open at the end, the innermost first. -/
  opened : List (Awaiting κ) := []

def Scan.read (t : BlockTable κ) (key : NodeId → Option κ) (s : Scan κ) (id : NodeId) : Scan κ :=
  match (key id).bind (openBehind t s.opened id) with
  | some opened => { s with opened }
  | none => { s with kept := s.kept ++ [id] }

def scan (t : BlockTable κ) (key : NodeId → Option κ) (ids : List NodeId) : Scan κ :=
  ids.foldl (Scan.read t key) {}

/-- The lists of nodes that nesting goes through, in the order in which it comes to their ends. -/
def lists (d : Document) (t : BlockTable κ) (key : NodeId → Option κ) :
    (levels : Nat) → NodeId → List (List NodeId)
  | 0, _ => []
  | levels + 1, id => (d.branches id).flatMap fun b =>
      (scan t key b.nodes).kept.flatMap (lists d t key levels) ++ [b.nodes]

/-- The lists of the nodes that a list keeps, and the list itself. -/
def listsIn (d : Document) (t : BlockTable κ) (key : NodeId → Option κ) (levels : Nat)
    (ids : List NodeId) : List (List NodeId) :=
  (scan t key ids).kept.flatMap (lists d t key levels) ++ [ids]

def AllClosed (t : BlockTable κ) (key : NodeId → Option κ) (ls : List (List NodeId)) : Prop :=
  ∀ l ∈ ls, (scan t key l).opened = []

/-- The error names the outermost block that is open at the end of the first list that ends with an
open block. -/
def Reports (d : Document) (t : BlockTable κ) (key : NodeId → Option κ) (ls : List (List NodeId))
    (e : Error) : Prop :=
  ∃ before l behind a, ls = before ++ l :: behind ∧ AllClosed t key before ∧
    (scan t key l).opened.getLast? = some a ∧ e = .openBlock (d.place a.node) a.kind

/-- The keys are those that the nesting gives in documents where nothing below the node differs. -/
def Seen (n : Nesting κ) (d : Document) (key : NodeId → Option κ) : Prop :=
  ∀ x, ∃ e, d.Frame e [x] ∧ key x = n.key? e x

variable {t : BlockTable κ} {key key' : NodeId → Option κ} {ids : List NodeId}
  {ls ls' : List (List NodeId)} {levels : Nat} {p : NodeId} {err : Error}

theorem scan_snoc (t : BlockTable κ) (key : NodeId → Option κ) (ids : List NodeId) (id : NodeId) :
    scan t key (ids ++ [id]) = (scan t key ids).read t key id := by
  rw [scan, foldl_append]
  rfl

theorem scan_congr (h : ∀ x ∈ ids, key' x = key x) : scan t key' ids = scan t key ids := by
  refine foldl_ext _ _ _ fun s id hid => ?_
  rw [Scan.read, Scan.read, h id hid]

theorem kept_sublist (t : BlockTable κ) (key : NodeId → Option κ) (ids : List NodeId) :
    (scan t key ids).kept.Sublist ids := by
  induction ids using List.reverseRecOn with
  | nil => exact List.Sublist.refl _
  | append_singleton ids id ih =>
    rw [scan_snoc, Scan.read]
    split
    · exact ih.trans (sublist_append_left _ _)
    · exact ih.append (List.Sublist.refl _)

theorem kept_append (t : BlockTable κ) (key : NodeId → Option κ) (ids more : List NodeId) :
    ∃ kept, (scan t key (ids ++ more)).kept = (scan t key ids).kept ++ kept := by
  induction more using List.reverseRecOn with
  | nil => exact ⟨[], by rw [append_nil, append_nil]⟩
  | append_singleton more id ih =>
    obtain ⟨kept, hkept⟩ := ih
    rw [← append_assoc, scan_snoc, Scan.read]
    split
    · exact ⟨kept, hkept⟩
    · exact ⟨kept ++ [id], by rw [hkept, append_assoc]⟩

theorem mem_kept (h : x ∈ (scan t key ids).kept) : x ∈ ids :=
  (kept_sublist t key ids).subset h

theorem reaches_of_mem_lists {l : List NodeId} (hl : l ∈ lists d t key levels p)
    (hx : x ∈ l) : ∃ c ∈ d.kids p, Reaches d.refs c x := by
  induction levels generalizing p with
  | zero => cases hl
  | succ levels ih =>
    obtain ⟨b, hb, hl⟩ := mem_flatMap.mp hl
    have hkid : ∀ {c}, c ∈ b.nodes → c ∈ d.kids p := fun hc => Document.mem_kids.mpr ⟨b, hb, hc⟩
    rcases mem_append.mp hl with hl | hl
    · obtain ⟨c, hc, hl⟩ := mem_flatMap.mp hl
      obtain ⟨c', hc', hr⟩ := ih hl
      exact ⟨c, hkid (mem_kept hc), (Reaches.child (d.kids_sub c hc')).trans hr⟩
    · rw [mem_singleton.mp hl] at hx
      exact ⟨x, hkid hx, .refl⟩

theorem lists_congr (h : ∀ c ∈ d.kids p, ∀ x, Reaches d.refs c x → key' x = key x) :
    lists d t key' levels p = lists d t key levels p := by
  induction levels generalizing p with
  | zero => rfl
  | succ levels ih =>
    refine flatMap_congr fun b hb => ?_
    have hkid : ∀ {c}, c ∈ b.nodes → c ∈ d.kids p := fun hc => Document.mem_kids.mpr ⟨b, hb, hc⟩
    rw [scan_congr fun x hx => h x (hkid hx) x .refl]
    congr 1
    refine flatMap_congr fun c hc => ih fun c' hc' x hx => ?_
    exact h c (hkid (mem_kept hc)) x ((Reaches.child (d.kids_sub c hc')).trans hx)

theorem lists_of_shallow {more : Nat} (h : Shallow d.refs levels p) (hle : levels ≤ more) :
    lists d t key more p = lists d t key levels p := by
  induction levels generalizing p more with
  | zero => exact h.elim
  | succ levels ih =>
    obtain ⟨more, rfl⟩ : ∃ k, more = k + 1 := ⟨more - 1, by omega⟩
    refine flatMap_congr fun b hb => congrArg (· ++ _) (flatMap_congr fun c hc => ?_)
    exact ih (h c (Document.refs_of_branch hb (mem_kept hc))) (by omega)

theorem AllClosed.congr (h : AllClosed t key ls) (hkey : ∀ l ∈ ls, ∀ x ∈ l, key' x = key x) :
    AllClosed t key' ls := fun l hl => by
  rw [scan_congr (hkey l hl)]
  exact h l hl

theorem allClosed_append : AllClosed t key (ls ++ ls') ↔ AllClosed t key ls ∧ AllClosed t key ls' :=
  forall_mem_append

theorem Reports.append (h : Reports d t key ls err) {before : List (List NodeId)}
    (hb : AllClosed t key before) (behind : List (List NodeId)) :
    Reports d t key (before ++ (ls ++ behind)) err := by
  obtain ⟨before', l, behind', a, rfl, hb', ha, rfl⟩ := h
  refine ⟨before ++ before', l, behind' ++ behind, a, ?_, allClosed_append.mpr ⟨hb, hb'⟩, ha, rfl⟩
  simp only [append_assoc, cons_append]

end Nesting

end Stencil
