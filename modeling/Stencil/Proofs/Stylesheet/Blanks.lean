import Stencil.Proofs.Script.Blanks
import Stencil.Proofs.Stylesheet.Mirroring

/-!
# Blanks of stylesheets

A comment makes no token, so the blanks around it are two tokens in a row. Each blank is judged on its own,
by what is next to it in the list: **it goes next to an operator and at an edge, and becomes one space
elsewhere** (`blanks_by_neighbours`). Where blanks follow one another, each of them that is next to no
operator and no edge becomes a space.
-/

namespace Stencil.Stylesheet

open Branch Document List
open Script (KeepsTo Rewrites Unrelated)

variable {d e : Document} {b left right : Branch} {x : NodeId} {edges : Bool}
  {enter : NodeId → Document → Document} {before after : Option Fragment}

/-! ### What compressing touches -/

/-- Compresses one node of a list. -/
def press (enter : NodeId → Document → Document) (edges : Bool) (before after : Option Fragment)
    (x : NodeId) (d : Document) : Document :=
  match d.kind x with
  | .cssSpace => d.setChildren x [.text (keptBlank d edges before after)]
  | .cssOperator => d.setChildren x [.text (Text.trim (d.ownText x))]
  | .cssString | .cssUrl => d
  | _ => enter x d

theorem compressBranch_cons_node : compressBranch enter edges before (.node x :: b) d =
    compressBranch enter edges (some (.node x)) b (press enter edges before b.head? x d) := rfl

section Induction

variable {P : Document → Prop}

/-- What is kept where a blank or an operator gets another text, and where a node is entered, is kept
when it is compressed. -/
theorem press_induction
    (hset : ∀ t, d.kind x = .cssSpace ∨ d.kind x = .cssOperator → P (d.setChildren x [.text t]))
    (henter : P (enter x d)) (h : P d) : P (press enter edges before after x d) := by
  rw [press]
  split
  case h_1 hk => exact hset _ (.inl hk)
  case h_2 hk => exact hset _ (.inr hk)
  case h_3 => exact h
  case h_4 => exact h
  case h_5 => exact henter

theorem compressBranch_induction
    (hset : ∀ {d : Document} {x : NodeId} (t : String), x ∈ b.nodes →
      d.kind x = .cssSpace ∨ d.kind x = .cssOperator → P d → P (d.setChildren x [.text t]))
    (henter : ∀ {d : Document} {x : NodeId}, x ∈ b.nodes → P d → P (enter x d)) (h : P d) :
    P (compressBranch enter edges before b d) := by
  induction b generalizing before d with
  | nil => exact h
  | cons f b ih =>
    cases f with
    | text s => exact ih hset henter h
    | node x =>
      rw [nodes_cons_node] at hset henter
      refine ih (fun t hx => hset t (mem_cons_of_mem _ hx)) (fun hx => henter (mem_cons_of_mem _ hx)) ?_
      exact press_induction (fun t hk => hset t mem_cons_self hk h) (henter mem_cons_self h) h

end Induction

theorem press_rewrites (henter : KeepsTo d enter) (ht : d.Thinned e) (x : NodeId)
    (edges : Bool) (before after : Option Fragment) :
    Rewrites (Reaches d.refs x) e (press enter edges before after x e) :=
  press_induction (fun t _ => (Rewrites.setText e x t).mono fun _ hy => hy ▸ .refl) (henter x e ht)
    (.refl e)

theorem compressBranch_rewrites (henter : KeepsTo d enter) (ht : d.Thinned e) (b : Branch)
    (edges : Bool) (before : Option Fragment) :
    Rewrites (fun y => ∃ c ∈ b.nodes, Reaches d.refs c y) e (compressBranch enter edges before b e) := by
  refine compressBranch_induction (P := Rewrites _ e) (fun {e' y} t hy _ h => ?_)
    (fun {e' y} hy h => ?_) (.refl e)
  · exact h.trans ((Rewrites.setText e' y t).mono fun z hz => ⟨y, hy, hz ▸ .refl⟩)
  · exact h.trans ((henter y e' (ht.trans h.thinned)).mono fun z hz => ⟨y, hy, hz⟩)

theorem compressNode_keepsTo (d : Document) (n : Nat) (edges : Bool) : KeepsTo d (compressNode n edges) := by
  induction n generalizing edges with
  | zero => exact fun _ e _ => .refl e
  | succ n ih =>
    refine fun x e ht => .foldl fun e' ht' i _ =>
      (compressBranch_rewrites (ih false) (ht.trans ht') _ edges none).mono ?_
    rintro y ⟨c, hc, hr⟩
    exact .head (((ht.trans ht').refs_sublist x).subset (refs_of_mem hc)) hr

/-! ### One blank -/

theorem isOperator_congr (h : ∀ y, e.kind y = d.kind y) : isOperator e = isOperator d := by
  funext f
  cases f with
  | text s => rfl
  | node y => rw [isOperator, isOperator, h]

/-- A blank of a list gets its text. The induction is on what stands in front of it. -/
theorem branches_blank (henter : KeepsTo d enter)
    (hapart : (left ++ .node x :: right).nodes.Pairwise (Unrelated d)) (hx : x < d.size)
    (hk : d.kind x = .cssSpace) (ht : d.Thinned e) (hkinds : ∀ y, e.kind y = d.kind y)
    (edges : Bool) (before : Option Fragment) :
    (compressBranch enter edges before (left ++ .node x :: right) e).branches x =
      [[.text (keptBlank d edges (left.getLast?.or before) right.head?)]] := by
  induction left generalizing before e with
  | nil =>
    obtain ⟨hapart, -⟩ := pairwise_cons.mp hapart
    have hpress : press enter edges before right.head? x e =
        e.setChildren x [.text (keptBlank d edges before right.head?)] := by
      rw [press, hkinds, hk]
      simp only [keptBlank, isOperator_congr hkinds]
    have ht' := ht.trans (press_rewrites henter ht x edges before right.head?).thinned
    have hlater := compressBranch_rewrites henter ht' right edges (some (.node x))
    rw [nil_append, compressBranch_cons_node, branches, hlater.node_eq x, hpress, setChildren, modify_self]
    · rfl
    · rwa [ht.size_eq]
    · rintro ⟨c, hc, hr⟩
      exact hapart c hc x .refl hr
  | cons f left ih =>
    have hlast : (f :: left).getLast?.or before = left.getLast?.or (some f) := by
      rw [getLast?_cons]
      cases left.getLast? <;> rfl
    rw [hlast]
    cases f with
    | text s => exact ih hapart ht hkinds _
    | node z =>
      have hpress := press_rewrites henter ht z edges before (left ++ .node x :: right).head?
      exact ih (pairwise_cons.mp hapart).2 (ht.trans hpress.thinned)
        (fun y => (hpress.kind_eq y).trans (hkinds y)) _

theorem outputOf_blank {t : String} (hx : x < d.size) (hk : d.kind x = .cssSpace)
    (hp : (d.node x).payload = .none) (hb : d.branches x = [[.text t]]) : d.outputOf x = t := by
  obtain ⟨n, hn⟩ := Nat.exists_eq_succ_of_ne_zero (Nat.ne_zero_of_lt hx)
  rw [kind] at hk
  rw [outputOf, render, hn]
  simp [writeNode, Output.manner, kind, hk, hp, hb, Kind.isTemplateBlock, Kind.templateBlocks,
    writeDefault, writeBranches, writeBranch, Kind.delimiters]

/-! ### Stylesheets -/

theorem normalizeUrls_rewrites (base : Option String) (id : NodeId) (d : Document) :
    Rewrites (d.kind · = .cssUrl) d (normalizeUrls base id d) := by
  refine .foldl fun e _ url hurl => ⟨.setBranch_zero (by rw [nodes_normalizeValue]), fun y hy => ?_,
    fun _ => modify_of_eq Node.kind rfl, fun _ => modify_of_eq Node.payload rfl⟩
  refine modify_ne fun heq => hy ?_
  simpa [hasKind, heq] using (mem_filter.mp hurl).2

/-- A compiled stylesheet has the tokens that it was split into. A blank goes next to an operator and at
an edge, and is one space elsewhere. -/
theorem blanks_by_neighbours {base : Option String} {path source out : String}
    (h : (language base).compileSource path source = .ok out) :
    ∃ (d a : Document) (b : Branch), grammar.tokenize [] [] root (ofSource path source) = .ok () d ∧
      a.output = out ∧ d.branches root = [b] ∧ a.branches root = [b] ∧
      ∀ left x right, b = left ++ .node x :: right → d.kind x = .cssSpace → a.outputOf x =
        if left.getLast?.all (isOperator d) || right.head?.all (isOperator d) then "" else " " := by
  obtain ⟨a, hprocess, rfl⟩ := compileSource_eq_ok.mp h
  obtain ⟨_, d, hread, hok⟩ := bind_eq_ok.mp hprocess
  cases hok
  have htok := Grammar.isTokens_of_tokenize hread
  have hurls := normalizeUrls_rewrites base root d
  obtain ⟨b, hb⟩ : ∃ b, d.branches root = [b] := length_eq_one_iff.mp <|
    (Grammar.tokenize_tended (grove_ofSource path source) .refl hread).2.single root
      (length_ofSource path source root)
  have hroot : (normalizeUrls base root d).branches root = [b] := by
    rwa [branches, hurls.node_eq root (by rw [htok.kind_eq]; decide)]
  have hsub : b.nodes.Sublist (d.refs root) := by
    simpa [kids, hb] using d.kids_sublist_refs root
  obtain ⟨n, hn⟩ := Nat.exists_eq_succ_of_ne_zero (Nat.ne_zero_of_lt htok.grove.lt_head)
  have heq : compress (normalizeUrls base root d) root =
      compressBranch (compressNode n false) true none b (normalizeUrls base root d) := by
    rw [compress, hurls.thinned.size_eq, hn, compressNode, hroot]
    simp only [length_singleton, range_one, foldl_cons, foldl_nil, branch, Node.branch]
    rw [← branches, hroot]
    rfl
  have hall := compressBranch_rewrites (compressNode_keepsTo d n false) hurls.thinned b true none
  rw [← heq] at hall
  refine ⟨d, _, b, hread, rfl, hb, ?_, fun left x right hbx hk => ?_⟩
  · rw [branches, hall.node_eq root]
    · exact hroot
    · rintro ⟨c, hc, hr⟩
      exact htok.grove.not_reaches_mem (hsub.subset hc) hr
  · subst hbx
    have hx := htok.grove.lt_of_refs (hsub.subset (mem_nodes.mpr (mem_append_right left mem_cons_self)))
    have hblank := branches_blank (compressNode_keepsTo d n false)
      ((Script.unrelated_refs htok.grove root).sublist hsub) hx hk hurls.thinned hurls.kind_eq true none
    rw [outputOf_blank (by rwa [hall.thinned.size_eq, hurls.thinned.size_eq])
      (by rw [hall.kind_eq, hurls.kind_eq, hk]) (by rw [hall.payload_eq, hurls.payload_eq, htok.payload_eq])
      (heq ▸ hblank)]
    cases left.getLast? <;> cases right.head? <;> simp [keptBlank]

/-- The blanks around a comment follow one another, and each becomes a space. -/
theorem blanks_by_neighbours_comment : ∃ a : Document,
    (language none).compileSource "s" "a /**/ b" = .ok a.output ∧ a.output = "a  b" ∧
      a.branches root = [[.text "a", .node 1, .node 2, .text "b"]] ∧ a.outputOf 1 = " " ∧
      a.outputOf 2 = " " := by
  have hc : (language none).compileSource "s" "a /**/ b" = .ok "a  b" := by decide +kernel
  have htok : succeeds (grammar.tokenize [] [] root) (ofSource "s" "a /**/ b") (fun _ d =>
      decide (d.branches root = [[.text "a", .node 1, .node 2, .text "b"]] ∧ d.kind 1 = .cssSpace ∧
        d.kind 2 = .cssSpace)) = true := by
    decide +kernel
  obtain ⟨_, d, hd, hcheck⟩ := of_succeeds htok
  obtain ⟨hb, h1, h2⟩ := of_decide_eq_true hcheck
  obtain ⟨d', a, b, hd', hout, hb', ha, hblanks⟩ := blanks_by_neighbours hc
  rw [hd] at hd'
  cases hd'
  rw [hb] at hb'
  cases hb'
  have hfirst := hblanks [.text "a"] 1 [.node 2, .text "b"] rfl h1
  have hsecond := hblanks [.text "a", .node 1] 2 [.text "b"] rfl h2
  refine ⟨a, hout ▸ hc, hout, ha, hfirst.trans ?_, hsecond.trans ?_⟩
  · simp [isOperator, h2]
  · simp [isOperator, h1]

end Stencil.Stylesheet
