import Stencil.Script.Compression
import Stencil.Proofs.Doc.Thinning

/-!
# What is left between tokens

Compressing a script only gives other texts to blanks and operators (`Rewrites`), and each node is in
one list only. So what becomes of a run of blanks depends on the run and on its neighbours alone:
**between two tokens of a list stands `gap` when all is done**, and all tokens but operators are as
they were (`compress_pressed`).
-/

namespace Stencil

open Branch List

variable {more run : List NodeId} {bracketed : Bool} {m rest : Branch} {n : Nat}
  {enter : NodeId → Document → Document} {S : NodeId → Prop} {before : Option Fragment} {t : String}

/-! ### Trimmed text -/

namespace Text

theorem dropWhile_of_head {p : Char → Bool} {s : List Char} (h : ∀ c ∈ s.head?, p c = false) :
    s.dropWhile p = s := by
  cases s with
  | nil => rfl
  | cons c s => rw [dropWhile_cons_of_neg (by rw [h c rfl]; decide)]

theorem head?_dropWhile {p : Char → Bool} (s : List Char) :
    ∀ c ∈ (s.dropWhile p).head?, p c = false := by
  intro c hc
  have hne : s.dropWhile p ≠ [] := by
    intro hnil
    rw [hnil] at hc
    cases hc
  rw [List.head?_eq_some_head hne] at hc
  cases hc
  simpa using head_dropWhile_not p hne

theorem trim_trim (s : String) : trim (trim s) = trim s := by
  set t := s.toList.dropWhile isBlank with ht
  have hhead : ∀ c ∈ (dropEndWhile isBlank t).head?, isBlank c = false := by
    intro c hc
    have hpre : dropEndWhile isBlank t <+: t := by
      have hsuffix := dropWhile_suffix isBlank (l := t.reverse)
      rw [dropEndWhile]
      simpa using reverse_prefix.mpr hsuffix
    refine head?_dropWhile s.toList c ?_
    obtain ⟨rest, hrest⟩ := hpre
    rw [← ht, ← hrest, List.head?_append, Option.mem_def.mp hc]
    rfl
  have hend : dropEndWhile isBlank (dropEndWhile isBlank t) = dropEndWhile isBlank t := by
    rw [dropEndWhile, dropEndWhile, reverse_reverse, dropWhile_of_head (head?_dropWhile _)]
  rw [trim, trim, String.toList_ofList, ← ht, dropWhile_of_head hhead, hend]

end Text

namespace Script

open Document

variable {d e e' e'' : Document} {b : Branch} {x y a c : NodeId} {l L : List NodeId}

/-! ### What compressing touches -/

/-- Some nodes have got other branches, with no nodes that they did not hold. -/
structure Rewrites (touched : NodeId → Prop) (e e' : Document) : Prop where
  thinned : e.Thinned e'
  node_eq : ∀ y, ¬ touched y → e'.node y = e.node y
  kind_eq : ∀ y, e'.kind y = e.kind y
  payload_eq : ∀ y, (e'.node y).payload = (e.node y).payload

namespace Rewrites

variable {T : NodeId → Prop}

theorem refl (e : Document) : Rewrites S e e :=
  ⟨.refl e, fun _ _ => rfl, fun _ => rfl, fun _ => rfl⟩

theorem trans (h : Rewrites S e e') (h' : Rewrites S e' e'') : Rewrites S e e'' :=
  ⟨h.thinned.trans h'.thinned, fun y hy => (h'.node_eq y hy).trans (h.node_eq y hy),
    fun y => (h'.kind_eq y).trans (h.kind_eq y), fun y => (h'.payload_eq y).trans (h.payload_eq y)⟩

theorem mono (h : Rewrites S e e') (hs : ∀ y, S y → T y) : Rewrites T e e' :=
  ⟨h.thinned, fun y hy => h.node_eq y fun hS => hy (hs y hS), h.kind_eq, h.payload_eq⟩

theorem foldl {α : Type} {f : Document → α → Document} {l : List α}
    (h : ∀ e' : Document, e.Thinned e' → ∀ a ∈ l, Rewrites S e' (f e' a)) :
    Rewrites S e (l.foldl f e) :=
  List.foldlRecOn (motive := Rewrites S e) l f (.refl e) fun e' he a ha => he.trans (h e' he.thinned a ha)

theorem setText (e : Document) (x : NodeId) (t : String) :
    Rewrites (· = x) e (e.setChildren x [.text t]) :=
  ⟨.setChildren e x rfl, fun _ hy => modify_ne hy, fun _ => modify_of_eq Node.kind rfl,
    fun _ => modify_of_eq Node.payload rfl⟩

end Rewrites

/-- What is kept where a blank gets another text is kept where a run of blanks does. -/
theorem setRun_induction {P : Document → Prop}
    (hset : ∀ {e : Document} {y : NodeId} (t : String), y ∈ run → e.kind y = .scriptSpace → P e →
      P (e.setChildren y [.text t]))
    (hrun : ∀ y ∈ run, e.kind y = .scriptSpace) (h : P e) (t : String) : P (setRun t run e) := by
  cases run with
  | nil => exact h
  | cons x xs =>
    obtain ⟨hx, hxs⟩ := forall_mem_cons.mp hrun
    refine (List.foldlRecOn (motive := fun e' => P e' ∧ ∀ y, e'.kind y = e.kind y) xs _
      ⟨hset t mem_cons_self hx h, fun y => modify_of_eq Node.kind rfl⟩
      fun e' ⟨h', hk⟩ y hy => ⟨?_, fun z => (modify_of_eq Node.kind rfl).trans (hk z)⟩).1
    exact hset "" (mem_cons_of_mem _ hy) ((hk y).trans (hxs y hy)) h'

/-- What is kept where a blank or an operator gets another text, and where a token is entered, is kept
when a list is compressed. -/
theorem compressBranch_induction {P : Document → Prop}
    (hset : ∀ {e : Document} {y : NodeId} (t : String), y ∈ run ++ b.nodes →
      e.kind y = .scriptSpace ∨ e.kind y = .operator → P e → P (e.setChildren y [.text t]))
    (henter : ∀ {e : Document} {y : NodeId}, y ∈ b.nodes → P e → P (enter y e))
    (hrun : ∀ y ∈ run, e.kind y = .scriptSpace) (h : P e) :
    P (compressBranch enter bracketed before run b e) := by
  induction b generalizing before run e with
  | nil =>
    exact setRun_induction (fun t hy hk => hset t (by simpa using hy) (.inl hk)) (by simpa using hrun) h _
  | cons f b ih =>
    have hblank : ∀ t, P (setRun t run.reverse e) := setRun_induction
      (fun t hy hk => hset t (mem_append_left _ (mem_reverse.mp hy)) (.inl hk)) (by simpa using hrun) h
    cases f with
    | text s => exact ih (fun t hy => hset t (mem_append_right _ hy)) henter (by simp) (hblank _)
    | node x =>
      rw [nodes_cons_node] at hset henter
      have hlater : ∀ {e : Document} {y : NodeId}, y ∈ Branch.nodes b → P e → P (enter y e) :=
        fun hy => henter (mem_cons_of_mem _ hy)
      rw [compressBranch]
      split_ifs with hk
      · exact ih (fun t hy => hset t (perm_middle.symm.subset hy)) hlater
          (forall_mem_cons.mpr ⟨beq_iff_eq.mp hk, hrun⟩) h
      · refine ih (fun t hy => hset t (mem_append_right _ (mem_cons_of_mem _ hy))) hlater
          (by simp) ?_
        split_ifs with hop
        · exact hset _ (by simp) (.inr (beq_iff_eq.mp hop)) (hblank _)
        · exact henter mem_cons_self (hblank _)

theorem setRun_rewrites (e : Document) (t : String) (run : List NodeId) :
    Rewrites (· ∈ run) e (setRun t run e) := by
  cases run with
  | nil => exact .refl e
  | cons x xs =>
    refine .trans ((Rewrites.setText e x t).mono fun y hy => hy ▸ mem_cons_self)
      (.foldl fun e' _ y hy => (Rewrites.setText e' y "").mono fun z hz => ?_)
    exact hz ▸ mem_cons_of_mem _ hy

def KeepsTo (d : Document) (enter : NodeId → Document → Document) : Prop :=
  ∀ x e, d.Thinned e → Rewrites (Reaches d.refs x) e (enter x e)

def pressToken (enter : NodeId → Document → Document) (x : NodeId) (e : Document) : Document :=
  if e.kind x == .operator then e.setChildren x [.text (operatorText e x)] else enter x e

theorem compressBranch_cons_token (hk : e.kind x ≠ .scriptSpace) :
    compressBranch enter bracketed before run (.node x :: b) e =
      compressBranch enter bracketed (some (.node x)) [] b (pressToken enter x
        (setRun (compressBranch.blank bracketed e before run (some (.node x))) run.reverse e)) := by
  rw [compressBranch, if_neg (by simpa using hk)]
  rfl

theorem pressToken_rewrites (henter : KeepsTo d enter)
    (ht : d.Thinned e) : Rewrites (Reaches d.refs x) e (pressToken enter x e) := by
  rw [pressToken]
  split_ifs
  · exact (Rewrites.setText e x _).mono fun y hy => hy ▸ .refl
  · exact henter x e ht

theorem compressBranch_rewrites (henter : KeepsTo d enter)
    (bracketed : Bool) (before : Option Fragment) (b : Branch) (ht : d.Thinned e) :
    Rewrites (fun y => ∃ c ∈ b.nodes, Reaches d.refs c y) e
      (compressBranch enter bracketed before [] b e) := by
  refine compressBranch_induction (P := Rewrites _ e) (fun {e' y} t hy _ h => ?_)
    (fun {e' y} hy h => ?_) (by simp) (.refl e)
  · exact h.trans ((Rewrites.setText e' y t).mono fun z hz => ⟨y, hy, hz ▸ .refl⟩)
  · exact h.trans ((henter y e' (ht.trans h.thinned)).mono fun z hz => ⟨y, hy, hz⟩)

theorem compressNode_rewrites (n : Nat) (bracketed : Bool) (x : NodeId) (ht : d.Thinned e) :
    Rewrites (fun y => ∃ c ∈ d.refs x, Reaches d.refs c y) e (compressNode n bracketed x e) := by
  induction n generalizing bracketed x e with
  | zero => exact .refl e
  | succ n ih =>
    refine .foldl fun e' ht' i _ => ?_
    have henter : KeepsTo d fun child e => compressNode n (isBracketed (e.kind child)) child e :=
      fun child e ht => (ih _ child ht).mono fun y hy => by
        obtain ⟨c, hc, hr⟩ := hy
        exact .head hc hr
    refine (compressBranch_rewrites henter bracketed none (e'.branch x i) (ht.trans ht')).mono ?_
    rintro y ⟨c, hc, hr⟩
    exact ⟨c, ((ht.trans ht').refs_sublist x).subset (refs_of_mem hc), hr⟩

/-! ### Runs of blanks -/

/-- What is left of a run of blanks, with what stands in front of it and behind it. -/
def remainder (d : Document) (bracketed : Bool) (before : Option Fragment) (run : List NodeId)
    (after : Option Fragment) : String :=
  if run = [] then "" else keptBlank d bracketed (run.any (hasLineBreak d)) before after

/-- What is left of a run of blanks between two tokens. -/
def gap (d : Document) (a : NodeId) (run : List NodeId) (c : NodeId) : String :=
  if run = [] then "" else keptBlank d true (run.any (hasLineBreak d)) (some (.node a)) (some (.node c))

/-- The first blank of a run holds a text and the others hold nothing. -/
inductive Holds (e : Document) : List NodeId → String → Prop where
  | nil : Holds e [] ""
  | cons {x : NodeId} {xs : List NodeId} {t : String} : e.branches x = [[.text t]] →
      (∀ y ∈ xs, e.branches y = [[.text ""]]) → Holds e (x :: xs) t

theorem Holds.congr (h : Holds e run t) (hn : ∀ x ∈ run, e'.node x = e.node x) : Holds e' run t := by
  have hb : ∀ x ∈ run, e'.branches x = e.branches x := fun x hx => by rw [branches, hn x hx]; rfl
  cases h with
  | nil => exact .nil
  | cons hx hxs =>
    refine .cons ((hb _ mem_cons_self).trans hx) fun y hy => ?_
    exact (hb y (mem_cons_of_mem _ hy)).trans (hxs y hy)

theorem branches_setText (hx : x < e.size) : (e.setChildren x [.text t]).branches x = [[.text t]] := by
  rw [branches, setChildren, modify_self hx]

theorem holds_setRun (hn : run.Nodup) (hlt : ∀ x ∈ run, x < e.size) :
    Holds (setRun t run e) run (if run = [] then "" else t) := by
  cases run with
  | nil => exact .nil
  | cons x xs =>
    obtain ⟨hx, hxs⟩ := nodup_cons.mp hn
    obtain ⟨hxlt, hlt⟩ := forall_mem_cons.mp hlt
    rw [if_neg (cons_ne_nil _ _)]
    -- those that have been emptied stay so, and so does the first
    have key : ∀ (l : List NodeId) (e : Document), l.Nodup → (∀ y ∈ l, y < e.size) →
        (∀ y ∈ l, (l.foldl (fun e y => e.setChildren y [.text ""]) e).branches y = [[.text ""]]) ∧
        ∀ y, y ∉ l → (l.foldl (fun e y => e.setChildren y [.text ""]) e).node y = e.node y := by
      intro l
      induction l with
      | nil => exact fun e _ _ => ⟨fun y hy => absurd hy not_mem_nil, fun _ _ => rfl⟩
      | cons z l ih =>
        intro e hn hlt
        obtain ⟨hz, hn⟩ := nodup_cons.mp hn
        obtain ⟨hzlt, hlt⟩ := forall_mem_cons.mp hlt
        have hsize : (e.setChildren z [.text ""]).size = e.size := size_modify ..
        obtain ⟨hin, hout⟩ := ih (e.setChildren z [.text ""]) hn (by rwa [hsize])
        refine ⟨forall_mem_cons.mpr ⟨?_, hin⟩, fun y hy => ?_⟩
        · rw [foldl_cons, branches, hout z hz, ← branches, branches_setText hzlt]
        · rw [foldl_cons, hout y (fun h => hy (mem_cons_of_mem _ h))]
          exact modify_ne fun h => hy (h ▸ mem_cons_self)
    have hsize : (e.setChildren x [.text t]).size = e.size := size_modify ..
    obtain ⟨hin, hout⟩ := key xs (e.setChildren x [.text t]) hxs (by rwa [hsize])
    refine .cons ?_ hin
    rw [setRun, branches, hout x hx, ← branches, branches_setText hxlt]

/-- The fragment is no blank. -/
def Solid (d : Document) (f : Fragment) : Prop := ∀ x, f = .node x → d.kind x ≠ .scriptSpace

/-- In a list behind the fragment `before`, each run of blanks from one other fragment to the next holds
what is left of it. -/
def Spaced (d e : Document) (bracketed : Bool) (before : Option Fragment) (b : Branch) : Prop :=
  ∀ left run right, b = left ++ (run.map .node ++ right) → (∀ x ∈ run, d.kind x = .scriptSpace) →
    (∀ f ∈ left.getLast?, Solid d f) → (∀ f ∈ right.head?, Solid d f) →
    Holds e run (remainder d bracketed (left.getLast?.or before) run right.head?)

/-- A run of blanks in a list that starts with blanks is that at the start, or behind it. -/
theorem run_cases {left right : Branch} (hrun : ∀ x ∈ run, d.kind x = .scriptSpace)
    (hrest : ∀ f ∈ rest.head?, Solid d f) (hmore : ∀ x ∈ more, d.kind x = .scriptSpace)
    (hleft : ∀ f ∈ left.getLast?, Solid d f) (hright : ∀ f ∈ right.head?, Solid d f)
    (h : run.map Fragment.node ++ rest = left ++ (more.map .node ++ right)) :
    (left = [] ∧ more = run ∧ right = rest) ∨
      ∃ f left', left = run.map .node ++ f :: left' ∧ rest = f :: (left' ++ (more.map .node ++ right)) := by
  induction run generalizing left more with
  | nil =>
    cases left with
    | cons f left => exact .inr ⟨f, left, rfl, h⟩
    | nil =>
      cases more with
      | nil => exact .inl ⟨rfl, rfl, h.symm⟩
      | cons y more =>
        have hhead : Fragment.node y ∈ rest.head? := by rw [show rest = _ from h]; rfl
        exact absurd (hmore y mem_cons_self) (hrest _ hhead y rfl)
  | cons x run ih =>
    obtain ⟨hx, hrun⟩ := forall_mem_cons.mp hrun
    cases left with
    | nil =>
      cases more with
      | nil => exact absurd hx (hright (.node x) (by rw [← show _ = right from h]; rfl) x rfl)
      | cons y more =>
        obtain ⟨heq, htail⟩ := List.cons.inj h
        cases heq
        rcases ih hrun (forall_mem_cons.mp hmore).2 hleft htail with ⟨-, rfl, rfl⟩ | ⟨f, left', hnil, -⟩
        · exact .inl ⟨rfl, rfl, rfl⟩
        · simp at hnil
    | cons g left =>
      obtain ⟨rfl, htail⟩ := List.cons.inj h
      have hlast : ∀ f ∈ left.getLast?, Solid d f := fun f hf => hleft f (by
        rw [getLast?_cons, Option.mem_def.mp hf]
        rfl)
      rcases ih hrun hmore hlast htail with
        ⟨rfl, -, -⟩ | ⟨f, left', rfl, hrest⟩
      · exact absurd hx (hleft (.node x) rfl x rfl)
      · exact .inr ⟨f, left', rfl, hrest⟩

/-- The blanks at the start of a list hold what is left of them, and the list behind them is spaced. -/
theorem Spaced.cons {f : Fragment} (h : Spaced d e bracketed (some f) m)
    (hrun : ∀ x ∈ run, d.kind x = .scriptSpace) (hf : Solid d f)
    (hholds : Holds e run (remainder d bracketed before run (some f))) :
    Spaced d e bracketed before (run.map .node ++ f :: m) := by
  intro left more right heq hmore hleft hright
  have hrest : ∀ g ∈ (f :: m).head?, Solid d g := fun g hg => Option.some.inj hg ▸ hf
  rcases run_cases hrun hrest hmore hleft hright heq with ⟨rfl, rfl, rfl⟩ | ⟨g, left', rfl, hm⟩
  · exact hholds
  · obtain ⟨rfl, hrest⟩ := List.cons.inj hm
    have hlast : (run.map Fragment.node ++ f :: left').getLast?.or before = left'.getLast?.or (some f) := by
      cases hl : left'.getLast? <;> simp [getLast?_append, getLast?_cons, hl]
    rw [hlast]
    refine h left' more right hrest hmore (fun g hg => hleft g ?_) hright
    simp_all [getLast?_append, getLast?_cons]

theorem Spaced.blanks (hrun : ∀ x ∈ run, d.kind x = .scriptSpace)
    (hholds : Holds e run (remainder d bracketed before run none)) :
    Spaced d e bracketed before (run.map .node ++ []) := by
  intro left more right heq hmore hleft hright
  rcases run_cases hrun (by simp) hmore hleft hright heq with ⟨rfl, rfl, rfl⟩ | ⟨_, _, -, hnil⟩
  · exact hholds
  · cases hnil

/-! ### Lists -/

def Unrelated (d : Document) (x y : NodeId) : Prop :=
  ∀ z, Reaches d.refs x z → ¬ Reaches d.refs y z

structure Compressed (enter : NodeId → Document → Document) (d e : Document) (l : List NodeId) :
    Prop where
  operator : ∀ x ∈ l, d.kind x = .operator →
    e.node x = { d.node x with branches := [[.text (operatorText d x)]] }
  /-- Other tokens have been entered when nothing below them had been changed. -/
  entered : ∀ x ∈ l, d.kind x ≠ .scriptSpace → d.kind x ≠ .operator → ∃ e1, d.Thinned e1 ∧
    (∀ y, e1.kind y = d.kind y) ∧ (∀ y, Reaches d.refs x y → e1.node y = d.node y) ∧
    ∀ y, Reaches d.refs x y → e.node y = (enter x e1).node y

/-- A document in which some nodes are still as they were. -/
structure Untouched (d e : Document) (l : List NodeId) : Prop where
  thinned : d.Thinned e
  kind_eq : ∀ y, e.kind y = d.kind y
  node_eq : ∀ x ∈ l, ∀ y, Reaches d.refs x y → e.node y = d.node y

theorem Untouched.rewrites {l' : List NodeId} (h : Untouched d e l)
    (hr : Rewrites S e e') (hl : l' ⊆ l) (hS : ∀ x ∈ l', ∀ y, Reaches d.refs x y → ¬ S y) :
    Untouched d e' l' where
  thinned := h.thinned.trans hr.thinned
  kind_eq y := (hr.kind_eq y).trans (h.kind_eq y)
  node_eq x hx y hy := (hr.node_eq y (hS x hx y hy)).trans (h.node_eq x (hl hx) y hy)

theorem Untouched.ownText_eq (h : Untouched d e l) (hx : x ∈ l) : e.ownText x = d.ownText x := by
  rw [ownText, children, h.node_eq x hx x .refl]
  rfl

theorem Untouched.operatorText_eq (h : Untouched d e l) (hx : x ∈ l) :
    operatorText e x = operatorText d x := by
  rw [operatorText, operatorText, h.ownText_eq hx]

theorem nodup_of_unrelated (h : l.Pairwise (Unrelated d)) : l.Nodup := by
  have hne : ∀ {x y}, Unrelated d x y → x ≠ y := by
    rintro x _ hxy rfl
    exact hxy x .refl .refl
  exact h.imp hne

/-- A run of blanks gets what is left of it, if it and the operators around it are as they were. -/
theorem holds_remainder (bracketed : Bool) (after : Option Fragment) (h : Untouched d e (run.reverse ++ l))
    (hn : run.reverse.Nodup) (hlt : ∀ x ∈ run.reverse, x < d.size)
    (hbefore : ∀ a, before = some (.node a) → d.kind a = .operator →
      operatorText e a = operatorText d a)
    (hafter : ∀ c, after = some (.node c) → d.kind c = .operator →
      operatorText e c = operatorText d c) :
    Holds (setRun (compressBranch.blank bracketed e before run after) run.reverse e) run.reverse
      (remainder d bracketed before run.reverse after) := by
  have hbreak : run.any (hasLineBreak e) = run.reverse.any (hasLineBreak d) := by
    have hsame : ∀ x ∈ run, hasLineBreak e x = hasLineBreak d x := fun x hx => by
      rw [hasLineBreak, h.ownText_eq (mem_append_left _ (mem_reverse.mpr hx))]
      rfl
    rw [any_reverse, Bool.eq_iff_iff, any_eq_true, any_eq_true]
    exact exists_congr fun x => and_congr_right fun hx => by rw [hsame x hx]
  have hpunct : isNodeOf e isPunctuation = isNodeOf d isPunctuation := by
    funext f
    cases f <;> simp [isNodeOf, h.kind_eq]
  have habsorbs : ∀ f, (∀ x, f = .node x → d.kind x = .operator → operatorText e x = operatorText d x) →
      absorbsLineBreak e f = absorbsLineBreak d f := fun f hf => by
    cases f with
    | text s => rfl
    | node x =>
      simp only [absorbsLineBreak, h.kind_eq]
      by_cases hk : d.kind x = .operator
      · rw [hf x rfl hk]
      · rw [beq_eq_false_iff_ne.mpr hk, Bool.false_and, Bool.false_and]
  have hblank : compressBranch.blank bracketed e before run after =
      keptBlank d bracketed (run.reverse.any (hasLineBreak d)) before after := by
    rw [compressBranch.blank, hbreak]
    cases before <;> cases after <;> try rfl
    next f g =>
      simp only [keptBlank, hpunct, habsorbs f fun x hx => hbefore x (congrArg some hx),
        habsorbs g fun x hx => hafter x (congrArg some hx)]
  rw [hblank]
  exact holds_setRun hn fun x hx => h.thinned.size_eq ▸ hlt x hx

theorem node_pressToken (h : Untouched d e (x :: l))
    (hlt : x < d.size) (hk : d.kind x = .operator) : (pressToken enter x e).node x =
      { d.node x with branches := [[.text (operatorText d x)]] } := by
  rw [pressToken, if_pos (by rw [h.kind_eq, hk]; rfl), setChildren,
    modify_self (by rw [h.thinned.size_eq]; exact hlt), h.operatorText_eq mem_cons_self,
    h.node_eq x mem_cons_self x .refl]

theorem operatorText_pressToken (h : Untouched d e (x :: l))
    (hlt : x < d.size) (hk : d.kind x = .operator) :
    operatorText (pressToken enter x e) x = operatorText d x := by
  have htext : (pressToken enter x e).ownText x = operatorText d x := by
    rw [ownText, children, node_pressToken h hlt hk]
    simp [Node.children, Branch.text]
  rw [operatorText, htext, operatorText, Text.trim_trim]

/-- A list is compressed. The induction is on what is still to be read of it; what is in front are
blanks that wait for the next token, and in front of these the last one. -/
theorem compressBranch_spec (henter : KeepsTo d enter)
    (bracketed : Bool) (before : Option Fragment) (run : List NodeId)
    (hapart : (run.reverse ++ b.nodes).Pairwise (Unrelated d))
    (hlt : ∀ x ∈ run.reverse ++ b.nodes, x < d.size) (hrun : ∀ x ∈ run, d.kind x = .scriptSpace)
    (h : Untouched d e (run.reverse ++ b.nodes))
    (hbefore : ∀ a, before = some (.node a) → d.kind a = .operator →
      operatorText e a = operatorText d a) :
    Spaced d (compressBranch enter bracketed before run b e) bracketed before
      (run.reverse.map .node ++ b) ∧
    Compressed enter d (compressBranch enter bracketed before run b e) b.nodes := by
  induction b generalizing before run e with
  | nil =>
    have hholds := holds_remainder bracketed none h (nodup_of_unrelated (by simpa using hapart))
      (by simpa using hlt) hbefore (fun c hc => by cases hc)
    exact ⟨.blanks (fun x hx => hrun x (mem_reverse.mp hx)) hholds, fun x hx => absurd hx not_mem_nil,
      fun x hx => absurd hx not_mem_nil⟩
  | cons f b ih =>
    have hrun' : ∀ x ∈ run.reverse, d.kind x = .scriptSpace := fun x hx =>
      hrun x (mem_reverse.mp hx)
    obtain ⟨hpairs, hcons, hcross⟩ := pairwise_append.mp hapart
    have hholds : ∀ after, (∀ c, after = some (.node c) → c ∈ Branch.nodes (f :: b)) →
        Holds (setRun (compressBranch.blank bracketed e before run after) run.reverse e) run.reverse
          (remainder d bracketed before run.reverse after) := fun after hafter =>
      holds_remainder bracketed after h (nodup_of_unrelated hpairs)
        (fun x hx => hlt x (mem_append_left _ hx)) hbefore fun c hc _ => h.operatorText_eq (mem_append_right _ (hafter c hc))
    cases f with
    | text s =>
      rw [compressBranch]
      set e1 := setRun (compressBranch.blank bracketed e before run (some (.text s))) run.reverse e
      have h1 : Untouched d e1 (Branch.nodes b) := h.rewrites (setRun_rewrites e _ run.reverse)
        (subset_append_right _ _) fun x hx y hy hmem => hcross y hmem x hx y .refl hy
      obtain ⟨hspaced, hdone⟩ := ih (some (.text s)) [] hcons
        (fun x hx => hlt x (mem_append_right _ hx)) (fun x hx => absurd hx not_mem_nil) h1
        (fun a ha => by cases ha)
      refine ⟨hspaced.cons hrun' (fun c hc => by cases hc) ?_, hdone⟩
      have hlater := compressBranch_rewrites henter bracketed (some (.text s)) b h1.thinned
      refine (hholds (some (.text s)) fun c hc => by cases hc).congr fun y hy => hlater.node_eq y ?_
      rintro ⟨c, hc, hr⟩
      exact hcross y hy c hc y .refl hr
    | node x =>
      rw [nodes_cons_node] at hapart hlt h hcons hcross hholds ⊢
      by_cases hk : d.kind x = .scriptSpace
      · -- one more blank
        rw [compressBranch, h.kind_eq x, if_pos (beq_iff_eq.mpr hk)]
        have hlist : run.reverse ++ x :: Branch.nodes b = (x :: run).reverse ++ Branch.nodes b := by simp
        rw [hlist] at hapart hlt h
        obtain ⟨hspaced, hdone⟩ := ih before (x :: run) hapart hlt
          (forall_mem_cons.mpr ⟨hk, hrun⟩) h hbefore
        refine ⟨?_, ⟨fun y hy hop => ?_, fun y hy hne => ?_⟩⟩
        · rw [reverse_cons, map_append, append_assoc] at hspaced
          exact hspaced
        · rcases mem_cons.mp hy with rfl | hy
          · rw [hk] at hop
            cases hop
          · exact hdone.operator y hy hop
        · rcases mem_cons.mp hy with rfl | hy
          · exact absurd hk hne
          · exact hdone.entered y hy hne
      · -- a token, which ends the run in front of it
        rw [compressBranch_cons_token (by rwa [h.kind_eq])]
        set e1 := setRun (compressBranch.blank bracketed e before run (some (.node x))) run.reverse e
        obtain ⟨hx, hrest⟩ := pairwise_cons.mp hcons
        have hxlt : x < d.size := hlt x (mem_append_right _ mem_cons_self)
        have h1 : Untouched d e1 (x :: Branch.nodes b) :=
          h.rewrites (setRun_rewrites e _ run.reverse) (subset_append_right _ _)
            fun y hy z hz hmem => hcross z hmem y hy z .refl hz
        have hpress := pressToken_rewrites (x := x) henter h1.thinned
        have h2 : Untouched d (pressToken enter x e1) (Branch.nodes b) :=
          h1.rewrites hpress (subset_cons_self _ _) fun y hy z hz hxz => hx y hy z hxz hz
        obtain ⟨hspaced, hdone⟩ := ih (some (.node x)) [] hrest
          (fun y hy => hlt y (mem_append_right _ (mem_cons_of_mem _ hy)))
          (fun y hy => absurd hy not_mem_nil) h2 fun a ha hka => by
            cases ha
            exact operatorText_pressToken h1 hxlt hka
        -- the rest of the list leaves alone what is not in it
        have hlater := compressBranch_rewrites henter bracketed (some (.node x)) b h2.thinned
        have hkept : ∀ y, (∀ c ∈ Branch.nodes b, ¬ Reaches d.refs c y) →
            (compressBranch enter bracketed (some (.node x)) [] b (pressToken enter x e1)).node y =
              (pressToken enter x e1).node y := fun y hy =>
          hlater.node_eq y fun hex => by
            obtain ⟨c, hc, hr⟩ := hex
            exact hy c hc hr
        have hbelow : ∀ y, Reaches d.refs x y → ∀ c ∈ Branch.nodes b, ¬ Reaches d.refs c y :=
          fun y hy c hc => hx c hc y hy
        refine ⟨hspaced.cons hrun' (fun c hc => by cases hc; exact hk) ?_,
          ⟨forall_mem_cons.mpr ⟨fun hkx => ?_, hdone.operator⟩,
            forall_mem_cons.mpr ⟨fun _ hkx => ⟨e1, h1.thinned, h1.kind_eq,
              h1.node_eq x mem_cons_self, fun y hy => ?_⟩, hdone.entered⟩⟩⟩
        · -- the run in front of the token has got its text
          refine (hholds (some (.node x)) fun c hc => by cases hc; exact mem_cons_self).congr fun y hy => ?_
          rw [hkept y fun c hc hr => hcross y hy c (mem_cons_of_mem _ hc) y .refl hr,
            hpress.node_eq y fun hr => hcross y hy x mem_cons_self y .refl hr]
        · rw [hkept x (hbelow x .refl), node_pressToken h1 hxlt hkx]
        · rw [hkept y (hbelow y hy), pressToken, if_neg (by rw [h1.kind_eq]; simpa using hkx)]

/-! ### Scripts -/

/-- A script that has been split into tokens: each node has one list, and no more. -/
structure IsSplit (d : Document) : Prop where
  grove : d.Grove [root]
  single : ∀ x, (d.branches x).length = 1
  refs_eq : ∀ x, d.refs x = (d.branch x 0).nodes
  /-- Blanks and operators hold no tokens. -/
  leaf : ∀ x, Reaches d.refs root x → d.kind x = .scriptSpace ∨ d.kind x = .operator → d.refs x = []

theorem unrelated_refs (h : d.Grove L) (x : NodeId) : (d.refs x).Pairwise (Unrelated d) := by
  refine List.Nodup.pairwise_of_forall_ne (h.nodup_refs x) fun a ha b hb hab z haz => ?_
  exact h.siblings_apart ha hb hab haz

theorem spaced_of_nodes_eq_nil (h : b.nodes = []) : Spaced d e bracketed before b := by
  intro left run right heq hrun _ _
  cases run with
  | nil => exact .nil
  | cons y run =>
    rw [heq, nodes_append, map_cons, cons_append, nodes_cons_node] at h
    exact absurd (append_eq_nil_iff.mp h).2 (cons_ne_nil _ _)

/-- What compressing does below a node, whose own list is between brackets or not. -/
structure Pressed (d e : Document) (bracketed : Bool) (x : NodeId) : Prop where
  spaced : ∀ p, Reaches d.refs x p →
    Spaced d e (if p = x then bracketed else isBracketed (d.kind p)) none (d.branch p 0)
  operator : ∀ y, Reaches d.refs x y → y ≠ x → d.kind y = .operator →
    e.node y = { d.node y with branches := [[.text (operatorText d y)]] }
  other : ∀ y, Reaches d.refs x y → y ≠ x → d.kind y ≠ .scriptSpace → d.kind y ≠ .operator →
    e.node y = d.node y

/-- What compressing does to the tokens of a list, at most `n` deep. -/
abbrev pressBelow (n : Nat) (child : NodeId) (e : Document) : Document :=
  compressNode n (isBracketed (e.kind child)) child e

theorem keepsTo_pressBelow (d : Document) (n : Nat) : KeepsTo d (pressBelow n) := fun child _ ht =>
  (compressNode_rewrites n _ child ht).mono fun y hy => by
    obtain ⟨c, hc, hr⟩ := hy
    exact .head hc hr

section Level

variable (hd : IsSplit d) (h : Untouched d e [x])
include hd h

theorem compressNode_succ (bracketed : Bool) : compressNode (n + 1) bracketed x e =
    compressBranch (pressBelow n) bracketed none [] (d.branch x 0) e := by
  have hnode := h.node_eq x mem_cons_self x .refl
  have hbranch : e.branch x 0 = d.branch x 0 := by rw [branch, hnode]; rfl
  rw [compressNode, branches, hnode, ← branches, hd.single, range_one, foldl_cons, foldl_nil, hbranch]

theorem Untouched.children : Untouched d e (d.branch x 0).nodes :=
  ⟨h.thinned, h.kind_eq, fun _ hc y hy =>
    h.node_eq x mem_cons_self y (.head (hd.refs_eq x ▸ hc) hy)⟩

theorem compressNode_list (bracketed : Bool) :
    Spaced d (compressNode (n + 1) bracketed x e) bracketed none (d.branch x 0) ∧
      Compressed (pressBelow n) d (compressNode (n + 1) bracketed x e) (d.branch x 0).nodes := by
  rw [compressNode_succ hd h]
  exact compressBranch_spec (keepsTo_pressBelow d n) bracketed none []
    (hd.refs_eq x ▸ unrelated_refs hd.grove x)
    (fun c hc => hd.grove.lt_of_refs (hd.refs_eq x ▸ hc : c ∈ d.refs x))
    (fun c hc => absurd hc not_mem_nil) (h.children hd) (fun a ha => by cases ha)

theorem compressNode_inner (bracketed : Bool) (hc : c ∈ d.refs x) (hblank : d.kind c ≠ .scriptSpace)
    (hop : d.kind c ≠ .operator) : ∃ e1, Untouched d e1 [c] ∧ ∀ y, Reaches d.refs c y →
      (compressNode (n + 1) bracketed x e).node y =
        (compressNode n (isBracketed (d.kind c)) c e1).node y := by
  obtain ⟨e1, ht1, hk1, hn1, hsame⟩ :=
    (compressNode_list hd h bracketed).2.entered c (hd.refs_eq x ▸ hc) hblank hop
  refine ⟨e1, ⟨ht1, hk1, fun z hz => ?_⟩, fun y hy => ?_⟩
  · rw [mem_singleton.mp hz]
    exact hn1
  · rw [hsame y hy, pressBelow, hk1]

end Level

theorem IsSplit.eq_of_reaches (hd : IsSplit d) (hc : Reaches d.refs root c)
    (hk : d.kind c = .scriptSpace ∨ d.kind c = .operator) (hy : Reaches d.refs c y) : y = c := by
  rcases hy.eq_or_child with heq | ⟨z, hz, -⟩
  · exact heq.symm
  · rw [hd.leaf c hc hk] at hz
    cases hz

/-- **Compressing below a node**, level by level. -/
theorem compressNode_pressed (hd : IsSplit d) (hr : Reaches d.refs root x)
    (hs : Shallow d.refs n x) (h : Untouched d e [x]) (bracketed : Bool) :
    Pressed d (compressNode n bracketed x e) bracketed x := by
  induction n generalizing x e bracketed with
  | zero => exact hs.elim
  | succ n ih =>
    obtain ⟨hspaced, hdone⟩ := compressNode_list hd h (n := n) bracketed
    -- what is further below is in the lists of the tokens that have been entered
    have hinner : ∀ c ∈ d.refs x, d.kind c ≠ .scriptSpace → d.kind c ≠ .operator →
        ∃ e1, Pressed d e1 (isBracketed (d.kind c)) c ∧ (∀ y, Reaches d.refs c y →
          (compressNode (n + 1) bracketed x e).node y = e1.node y) ∧ e1.node c = d.node c := by
      intro c hc hblank hop
      obtain ⟨e1, h1, hsame⟩ := compressNode_inner hd h (n := n) bracketed hc hblank hop
      refine ⟨_, ih (hr.tail hc) (hs c hc) h1 _, hsame, ?_⟩
      rw [(compressNode_rewrites n _ c h1.thinned).node_eq c fun hex => ?_,
        h1.node_eq c mem_cons_self c .refl]
      obtain ⟨z, hz, hback⟩ := hex
      exact hd.grove.not_reaches_mem hz hback
    refine ⟨fun p hp => ?_, fun y hy hne hk => ?_, fun y hy hne hblank hop => ?_⟩
    · rcases hp.eq_or_child with rfl | ⟨c, hc, hpc⟩
      · rw [if_pos rfl]
        exact hspaced
      · have hne : p ≠ x := by
          rintro rfl
          exact hd.grove.not_reaches_mem hc hpc
        rw [if_neg hne]
        by_cases hk : d.kind c = .scriptSpace ∨ d.kind c = .operator
        · obtain rfl := hd.eq_of_reaches (hr.tail hc) hk hpc
          refine spaced_of_nodes_eq_nil ?_
          rw [← hd.refs_eq]
          exact hd.leaf p (hr.tail hc) hk
        · obtain ⟨hblank, hop⟩ := not_or.mp hk
          obtain ⟨e1, hpressed, hsame, -⟩ := hinner c hc hblank hop
          intro left run right heq hrun hleft hright
          have hflag : (if p = c then isBracketed (d.kind c) else isBracketed (d.kind p)) =
              isBracketed (d.kind p) := by
            split_ifs with hp <;> simp [hp]
          have hholds := hflag ▸ hpressed.spaced p hpc left run right heq hrun hleft hright
          refine hholds.congr fun y hy => hsame y (hpc.tail ?_)
          rw [hd.refs_eq, heq, nodes_append, nodes_append]
          exact mem_append_right _ (mem_append_left _ (mem_nodes.mpr (mem_map_of_mem hy)))
    · rcases hy.eq_or_child with rfl | ⟨c, hc, hy⟩
      · exact absurd rfl hne
      · by_cases hyc : y = c
        · subst hyc
          exact hdone.operator y (hd.refs_eq x ▸ hc) hk
        · have hkc : ¬ (d.kind c = .scriptSpace ∨ d.kind c = .operator) := fun h =>
            hyc (hd.eq_of_reaches (hr.tail hc) h hy)
          obtain ⟨hblank, hop⟩ := not_or.mp hkc
          obtain ⟨e1, hpressed, hsame, -⟩ := hinner c hc hblank hop
          rw [hsame y hy, hpressed.operator y hy hyc hk]
    · rcases hy.eq_or_child with rfl | ⟨c, hc, hy⟩
      · exact absurd rfl hne
      · have hkc : ¬ (d.kind c = .scriptSpace ∨ d.kind c = .operator) := fun h => by
          obtain rfl := hd.eq_of_reaches (hr.tail hc) h hy
          exact h.elim hblank hop
        obtain ⟨hblankc, hopc⟩ := not_or.mp hkc
        obtain ⟨e1, hpressed, hsame, hnode⟩ := hinner c hc hblankc hopc
        rw [hsame y hy]
        by_cases hyc : y = c
        · rw [hyc, hnode]
        · exact hpressed.other y hy hyc hblank hop

/-! ### Blanks at the start of lists -/

theorem Holds.branches_eq (h : Holds e run "") (hx : x ∈ run) : e.branches x = [[.text ""]] := by
  cases h with
  | nil => cases hx
  | cons hfirst hothers =>
    rcases mem_cons.mp hx with rfl | hx
    · exact hfirst
    · exact hothers x hx

theorem compress_pressed (hd : IsSplit d) : Pressed d (compress d root) true root :=
  compressNode_pressed hd .refl (hd.grove.shallow hd.grove.lt_head)
    ⟨.refl d, fun _ => rfl, fun _ _ _ _ => rfl⟩ true

theorem compress_gap (hd : IsSplit d) {p : NodeId} (hp : Reaches d.refs root p) {left right : Branch}
    (heq : d.branch p 0 = left ++ .node x :: (run.map .node ++ .node c :: right))
    (hx : d.kind x ≠ .scriptSpace) (hc : d.kind c ≠ .scriptSpace)
    (hrun : ∀ z ∈ run, d.kind z = .scriptSpace) : Holds (compress d root) run (gap d x run c) := by
  have hholds := (compress_pressed hd).spaced p hp (left ++ [.node x]) run (.node c :: right) (by simp [heq])
    hrun (by simpa [Solid] using hx) (by simpa [Solid] using hc)
  simpa [remainder, keptBlank, gap] using hholds

/-- Nothing is left of the blanks that a bracketed list starts with. -/
theorem compress_lead (hd : IsSplit d) {p : NodeId} (hp : Reaches d.refs root p)
    (hb : isBracketed (d.kind p) = true) (hrun : ∀ z ∈ run, d.kind z = .scriptSpace)
    (hrest : ∀ f ∈ rest.head?, Solid d f) (heq : d.branch p 0 = run.map .node ++ rest) (hc : c ∈ run) :
    (compress d root).branches c = [[.text ""]] := by
  have hholds := (compress_pressed hd).spaced p hp [] run rest heq hrun (by simp) hrest
  have hnone : remainder d (if p = root then true else isBracketed (d.kind p)) none run rest.head? = "" := by
    simp [remainder, keptBlank, hb]
  exact (hnone ▸ hholds).branches_eq hc

theorem compress_rewrites (d : Document) :
    Rewrites (fun y => ∃ c ∈ d.refs root, Reaches d.refs c y) d (compress d root) :=
  compressNode_rewrites d.size true root (.refl d)

theorem node_compress_root (hd : IsSplit d) : (compress d root).node root = d.node root := by
  refine (compress_rewrites d).node_eq root fun hex => ?_
  obtain ⟨c, hc, hback⟩ := hex
  exact hd.grove.not_reaches_mem hc hback

end Script

end Stencil
