import Stencil.Proofs.Lexing.Mirroring
import Stencil.Proofs.Script.AlphaEquivalence
import Stencil.Script.Language

/-!
# A script in two documents

What is done to a script in a document of its own is done to it in a region of another document: its
blanks are compressed (`compress_trimmed`), its declarations and references are the same but for the
numbers of nodes (`declarations_alike`, `references_eq`), and so are its new names and the spaces
between braces (`minify_alike`).
-/

namespace Stencil

open Branch Document List

variable {l : List NodeId} {global scope script : NodeId} {b : Branch} {m n : Nat}

namespace Script

variable {φ : NodeId → NodeId} {d0 d e : Document} {f : Fragment} {x : NodeId}

/-! ### Blanks -/

section Blanks

section

variable (h : Mirror φ d e)
include h

theorem operatorText_mirror (x : NodeId) : operatorText e (φ x) = operatorText d x := by
  rw [operatorText, operatorText, h.ownText_eq]

theorem hasLineBreak_mirror (x : NodeId) : hasLineBreak e (φ x) = hasLineBreak d x := by
  rw [hasLineBreak, hasLineBreak, h.ownText_eq]

theorem isNodeOf_mirror (hf : f ≠ .node root) (p : Kind → Bool) :
    isNodeOf e p (f.renumber φ) = isNodeOf d p f := by
  cases f with
  | text s => rfl
  | node id =>
    show p (e.kind (φ id)) = p (d.kind id)
    rw [h.kind_eq id fun hid => hf (hid ▸ rfl)]

theorem absorbsLineBreak_mirror (hf : f ≠ .node root) :
    absorbsLineBreak e (f.renumber φ) = absorbsLineBreak d f := by
  cases f with
  | text s => rfl
  | node id =>
    show (e.kind (φ id) == .operator && !(["+", "-"].contains (operatorText e (φ id)))) = _
    rw [h.kind_eq id fun hid => hf (hid ▸ rfl), operatorText_mirror h]
    rfl

theorem keptBlank_mirror {before after : Option Fragment}
    (hb : before ≠ some (.node root)) (ha : after ≠ some (.node root)) (bracketed lineBreak : Bool) :
    keptBlank e bracketed lineBreak (before.map (·.renumber φ)) (after.map (·.renumber φ)) =
      keptBlank d bracketed lineBreak before after := by
  cases before with
  | none => rfl
  | some f =>
    cases after with
    | none => rfl
    | some f' =>
      have hf : f ≠ .node root := fun heq => hb (heq ▸ rfl)
      have hf' : f' ≠ .node root := fun heq => ha (heq ▸ rfl)
      simp only [keptBlank, Option.map_some, isNodeOf_mirror h hf, isNodeOf_mirror h hf',
        absorbsLineBreak_mirror h hf, absorbsLineBreak_mirror h hf']

end

theorem setRun_trimmed (h : Trimmed φ d0 d e) (text : String) (run : List NodeId) :
    Trimmed φ d0 (setRun text run d) (setRun text (run.map φ) e) := by
  cases run with
  | nil => exact h
  | cons first others =>
    rw [map_cons, setRun, setRun, foldl_map]
    exact foldl_rel (r := Trimmed φ d0) (h.setText first text) fun x _ d e h => h.setText x ""

abbrev CompressesBelow (φ : NodeId → NodeId) (d0 : Document)
    (enter enter' : NodeId → Document → Document) (x : NodeId) : Prop :=
  ∀ {d e : Document}, Trimmed φ d0 d e → Trimmed φ d0 (enter x d) (enter' (φ x) e)

theorem compressBranch_trimmed {enter enter' : NodeId → Document → Document}
    (henter : ∀ x ∈ b.nodes, x ≠ root ∧ CompressesBelow φ d0 enter enter' x)
    (h : Trimmed φ d0 d e) (bracketed : Bool) (before : Option Fragment)
    (hbef : before ≠ some (.node root)) (run : List NodeId) :
    Trimmed φ d0 (compressBranch enter bracketed before run b d)
      (compressBranch enter' bracketed (before.map (·.renumber φ)) (run.map φ) (b.renumber φ)
        e) := by
  have hrun : ∀ {d e : Document} {before : Option Fragment} (after : Option Fragment)
      (run : List NodeId), Trimmed φ d0 d e → before ≠ some (.node root) →
      after ≠ some (.node root) → Trimmed φ d0
        (setRun (compressBranch.blank bracketed d before run after) run.reverse d)
        (setRun (compressBranch.blank bracketed e (before.map (·.renumber φ)) (run.map φ)
          (after.map (·.renumber φ))) (run.map φ).reverse e) := by
    intro d e before after run h hb ha
    have hbreak : (run.map φ).any (hasLineBreak e) = run.any (hasLineBreak d) := by
      rw [any_map]
      exact congrArg (run.any ·) (funext fun x => hasLineBreak_mirror h.toMirror x)
    rw [compressBranch.blank, compressBranch.blank, hbreak, keptBlank_mirror h.toMirror hb ha,
      ← map_reverse]
    exact setRun_trimmed h _ _
  induction b generalizing before run d e with
  | nil =>
    rw [renumber_nil, compressBranch, compressBranch]
    exact hrun none run h hbef (by simp)
  | cons f b ih =>
    cases f with
    | text s =>
      rw [renumber_cons_text, compressBranch, compressBranch]
      exact ih henter (hrun (some (.text s)) run h hbef (by simp)) (some (.text s)) (by simp) []
    | node id =>
      rw [nodes_cons_node, forall_mem_cons] at henter
      obtain ⟨⟨hne, hid⟩, henter⟩ := henter
      have hsome : some (Fragment.node id) ≠ some (.node root) := by simpa using hne
      rw [renumber_cons_node, compressBranch, compressBranch, h.kind_eq id hne]
      split_ifs with hspace
      · exact ih henter h before hbef (id :: run)
      · have h1 := hrun (some (.node id)) run h hbef hsome
        refine ih henter ?_ (some (.node id)) hsome []
        rw [show ((some (Fragment.node id)).map (·.renumber φ)) = some (.node (φ id)) from rfl]
          at h1
        simp only [h1.kind_eq id hne, operatorText_mirror h1.toMirror]
        split_ifs
        · exact h1.setText id _
        · exact hid h1

theorem compressNode_trimmed (hfree : ∀ x, root ∉ d0.refs x)
    (h : Trimmed φ d0 d e) (hn : Shallow d0.refs n x) (hm : Shallow d0.refs m x)
    (bracketed : Bool) : Trimmed φ d0 (compressNode n bracketed x d) (compressNode m bracketed (φ x) e) := by
  induction n generalizing x m d e bracketed with
  | zero => exact hn.elim
  | succ n ih =>
    obtain ⟨m, rfl⟩ := hm.exists_succ
    rw [compressNode, compressNode, h.branches_eq, length_map]
    refine foldl_rel (r := Trimmed φ d0) h fun i _ d e h => ?_
    rw [h.branch_eq]
    refine compressBranch_trimmed (fun c hc => ?_) h bracketed none (by simp) []
    have hc := h.mem_refs hc
    have hne : c ≠ root := by
      rintro rfl
      exact hfree x hc
    refine ⟨hne, fun {d e} h => ?_⟩
    show Trimmed φ d0 (compressNode n (isBracketed (d.kind c)) c d)
      (compressNode m (isBracketed (e.kind (φ c))) (φ c) e)
    rw [h.kind_eq c hne]
    exact ih h (hn c hc) (hm c hc) _

end Blanks

theorem compress_trimmed (hfree : ∀ x, root ∉ d.refs x) (h : Mirror φ d e)
    (hs : Shallow d.refs d.size x) : Trimmed φ d (compress d x) (compress e (φ x)) :=
  compressNode_trimmed hfree (.refl h) hs (hs.mono h.size_le) true

/-! ### Tokens -/

section Tokens

variable (h : Mirror φ d e) (hx : x ≠ root)
include h hx

theorem isSignificant_mirror : isSignificant e (φ x) = isSignificant d x := by
  rw [isSignificant, isSignificant, h.kind_eq x hx]

theorem isKeyword_mirror (word : String) : isKeyword e (φ x) word = isKeyword d x word := by
  rw [isKeyword, isKeyword, h.kind_eq x hx, h.ownText_eq]

theorem isOperator_mirror (op : String) : isOperator e (φ x) op = isOperator d x op := by
  rw [isOperator, isOperator, h.kind_eq x hx, operatorText_mirror h]

theorem meet_mirror (p : Progress) : p.meet e (φ x) = p.meet d x := by
  simp only [Progress.meet, endsExpression, startsExpression, h.kind_eq x hx, h.ownText_eq,
    operatorText_mirror h]

theorem past_mirror (p : Progress) (isPrivate : Bool) :
    p.past e isPrivate (φ x) = p.past d isPrivate x := by
  simp only [Progress.past, Progress.skip, isSignificant_mirror h hx, h.kind_eq x hx, h.ownText_eq,
    meet_mirror h hx, operatorText_mirror h, hasLineBreak_mirror h]

end Tokens

/-! ### Declarations -/

theorem beq_of_injective {α β : Type} [BEq α] [LawfulBEq α] [BEq β] [LawfulBEq β] {g : α → β}
    (hg : Function.Injective g) (a b : α) : (g a == g b) = (a == b) := by
  rw [Bool.eq_iff_iff, beq_iff_eq, beq_iff_eq, hg.eq_iff]

def Declaration.renumber (φ : NodeId → NodeId) (e : Declaration) : Declaration :=
  { e with scope := φ e.scope, node := φ e.node }

/-- Two searches stop with the same fault, or find what corresponds. -/
abbrev AlikeScopes {α β : Type} (R : α → β → Prop) : Except ScopeError α → Except ScopeError β → Prop :=
  AlikeExcept (fun e e' => e'.fault = e.fault) R

abbrev AlikeFound (φ : NodeId → NodeId) :
    Except ScopeError (List Declaration) → Except ScopeError (List Declaration) → Prop :=
  AlikeScopes fun ds ds' => ds' = ds.map (Declaration.renumber φ)

section Declarations

variable (h : Mirror φ d e)
include h

theorem filter_isSignificant_mirror (hl : ∀ x ∈ l, x ≠ root) :
    (l.map φ).filter (isSignificant e) = (l.filter (isSignificant d)).map φ := by
  rw [filter_map]
  congr 1
  exact filter_congr fun x hx => isSignificant_mirror h (hl x hx)

theorem parameterNodes_alike (hl : ∀ x ∈ l, x ≠ root) (wantComma : Bool) :
    AlikeScopes (fun found found' => found' = found.map φ)
      (parameterNodes d wantComma l) (parameterNodes e wantComma (l.map φ)) := by
  induction l generalizing wantComma with
  | nil => exact .ok rfl
  | cons x l ih =>
    obtain ⟨hx, hl⟩ := forall_mem_cons.mp hl
    rw [map_cons, parameterNodes, parameterNodes, h.kind_eq x hx, isOperator_mirror h hx]
    split_ifs
    · exact ih hl wantComma
    · refine (ih hl true).bind fun found found' hf => .ok ?_
      rw [hf, map_cons]
    · exact ih hl false
    · exact .error rfl

omit h in
theorem nextToken_alike (hl : ∀ x ∈ l, x ≠ root) (keyword : NodeId) :
    AlikeScopes (fun t t' => t' = (φ t.1, t.2.map φ) ∧ t.1 ≠ root ∧ ∀ x ∈ t.2, x ≠ root)
      (nextToken d keyword l) (nextToken e (φ keyword) (l.map φ)) := by
  cases l with
  | nil => exact .error rfl
  | cons x l => exact .ok ⟨rfl, forall_mem_cons.mp hl⟩

variable (hfree : ∀ x, root ∉ d.refs x)
include hfree

theorem parametersFrom_alike {list : NodeId} {rest : List NodeId} (hlist : list ≠ root)
    (hrest : ∀ x ∈ rest, x ≠ root) (keyword : NodeId) :
    AlikeFound φ (parametersFrom d keyword list rest)
      (parametersFrom e (φ keyword) (φ list) (rest.map φ)) := by
  have hparams := parameterNodes_alike h (l := d.childNodes list)
    (fun x hx hroot => hfree list (refs_of_children (hroot ▸ hx))) false
  rw [← h.childNodes_eq] at hparams
  unfold parametersFrom
  rw [h.kind_eq list hlist]
  by_cases hk : (d.kind list != .parentheses) = true
  · rw [if_pos hk, if_pos hk]
    exact .error rfl
  · rw [if_neg hk, if_neg hk]
    refine hparams.bind ?_
    rintro found _ rfl
    refine (nextToken_alike hrest keyword).bind ?_
    rintro ⟨body, more⟩ ⟨_, _⟩ ⟨hbody, hne, -⟩
    cases hbody
    simp only [h.kind_eq body hne]
    split_ifs
    · exact .error rfl
    · refine .ok ?_
      simp [Declaration.renumber, h.ownText_eq]

theorem parameters_alike {after : List NodeId} (ha : ∀ x ∈ after, x ≠ root) (keyword : NodeId) :
    AlikeFound φ (parameters d keyword after) (parameters e (φ keyword) (after.map φ)) := by
  rw [parameters_eq, parameters_eq, filter_isSignificant_mirror h ha]
  refine (nextToken_alike (fun x hx => ha x (mem_of_mem_filter hx)) keyword).bind ?_
  rintro ⟨first, rest⟩ ⟨_, _⟩ ⟨hfirst, hne, hrest⟩
  cases hfirst
  simp only [h.kind_eq first hne]
  split_ifs
  · refine (nextToken_alike hrest keyword).bind ?_
    rintro ⟨list, rest'⟩ ⟨_, _⟩ ⟨hlist, hne', hrest'⟩
    cases hlist
    exact parametersFrom_alike h hfree hne' hrest' keyword
  · exact parametersFrom_alike h hfree hne hrest keyword

theorem foundAt_alike
    {enter enter' : NodeId → NodeId → Except ScopeError (List Declaration)} {more : List NodeId} (hx : x ≠ root) (hm : ∀ x ∈ more, x ≠ root)
    (henter : ∀ scope, AlikeFound φ (enter scope x) (enter' (φ scope) (φ x))) (p : Progress) :
    AlikeFound φ (foundAt d scope enter p x more)
      (foundAt e (φ scope) enter' p (φ x) (more.map φ)) := by
  simp only [foundAt, isSignificant_mirror h hx, h.kind_eq x hx, h.ownText_eq, meet_mirror h hx]
  split_ifs
  · exact .ok rfl
  · exact parameters_alike h hfree hm x
  · exact .ok rfl
  · exact .ok rfl
  · exact .ok rfl
  · exact .ok rfl
  · exact henter x
  · exact henter scope

theorem declarationsIn_alike {isPrivate : Bool}
    {enter enter' : NodeId → NodeId → Except ScopeError (List Declaration)} (hl : ∀ x ∈ l, x ≠ root)
    (henter : ∀ x ∈ l, ∀ scope, AlikeFound φ (enter scope x) (enter' (φ scope) (φ x)))
    (p : Progress) : AlikeFound φ (declarationsIn d isPrivate scope enter p l)
      (declarationsIn e isPrivate (φ scope) enter' p (l.map φ)) := by
  induction l generalizing p with
  | nil => exact .ok rfl
  | cons x l ih =>
    obtain ⟨hx, hl⟩ := forall_mem_cons.mp hl
    obtain ⟨hex, henter⟩ := forall_mem_cons.mp henter
    rw [map_cons, declarationsIn_cons, declarationsIn_cons, past_mirror h hx]
    refine (foundAt_alike h hfree hx hl hex p).bind ?_
    rintro own _ rfl
    refine (ih hl henter _).bind ?_
    rintro rest _ rfl
    exact .ok (map_append ..).symm

theorem declarationsBelow_alike (hn : Shallow d.refs n x)
    (hm : Shallow d.refs m x) : AlikeFound φ (declarationsBelow d global n scope x)
      (declarationsBelow e (φ global) m (φ scope) (φ x)) := by
  induction n generalizing x m scope with
  | zero => exact hn.elim
  | succ n ih =>
    obtain ⟨m, rfl⟩ := hm.exists_succ
    have hprivate : (φ scope != φ global) = (scope != global) := by
      rw [bne, bne, beq_of_injective h.injective]
    rw [declarationsBelow, declarationsBelow, h.branches_eq, hprivate]
    refine (AlikeExcept.mapM (S := fun ds ds' => ds' = ds.map (Declaration.renumber φ)) ?_).bind ?_
    · rw [forall₂_map_right_iff, forall₂_same]
      intro b hb
      rw [nodes_renumber]
      have hmem : ∀ c ∈ b.nodes, c ∈ d.refs x := fun c hc => refs_of_branch hb hc
      refine declarationsIn_alike h hfree (fun c hc hroot => hfree x (hroot ▸ hmem c hc)) ?_ {}
      exact fun c hc scope => ih (hn c (hmem c hc)) (hm c (hmem c hc))
    · intro found found' hf
      refine .ok ?_
      induction hf with
      | nil => rfl
      | cons hab _ ih => rw [flatten_cons, flatten_cons, map_append, hab, ih]

theorem declarations_alike (hs : Shallow d.refs d.size x) :
    AlikeFound φ (declarations d x) (declarations e (φ x)) :=
  declarationsBelow_alike h hfree hs (hs.mono h.size_le)

end Declarations

/-! ### What is declared where -/

section Lookup

variable {ds : List Declaration} (hφ : Function.Injective φ)
include hφ

theorem Declaration.renumber_injective : Function.Injective (Declaration.renumber φ) := by
  rintro ⟨s, n, x⟩ ⟨s', n', x'⟩ heq
  obtain ⟨hs, hn, hx⟩ := Declaration.mk.inj heq
  obtain rfl : s = s' := hφ hs
  obtain rfl : x = x' := hφ hx
  obtain rfl : n = n' := hn
  rfl

theorem declarationOf?_renumber (scope : NodeId) (name : String) :
    declarationOf? (ds.map (Declaration.renumber φ)) (φ scope) name =
      (declarationOf? ds scope name).map (Declaration.renumber φ) := by
  rw [declarationOf?, declarationOf?, find?_map]
  congr 2
  funext e
  show (φ e.scope == φ scope && e.name == name) = _
  rw [beq_of_injective hφ]

theorem namesOf_renumber (scope : NodeId) :
    namesOf (ds.map (Declaration.renumber φ)) (φ scope) =
      (namesOf ds scope).map (Declaration.renumber φ) := by
  rw [namesOf, namesOf, filter_map, filter_map]
  have hscope : ((fun e : Declaration => e.scope == φ scope) ∘ Declaration.renumber φ) =
      fun e => e.scope == scope := by
    funext e
    exact beq_of_injective hφ e.scope scope
  rw [hscope]
  congr 2
  funext e
  show (declarationOf? (ds.map (Declaration.renumber φ)) (φ scope) e.name ==
    (some e).map (Declaration.renumber φ)) = _
  rw [declarationOf?_renumber hφ]
  exact beq_of_injective (Option.map_injective (Declaration.renumber_injective hφ)) _ _

theorem repetitions_renumber : repetitions (ds.map (Declaration.renumber φ)) =
    (repetitions ds).map (Prod.map φ φ) := by
  rw [repetitions, repetitions, filterMap_map, map_filterMap]
  refine filterMap_congr fun e _ => ?_
  have hfirst : declarationOf? (ds.map (Declaration.renumber φ)) (e.renumber φ).scope
      (e.renumber φ).name = _ := declarationOf?_renumber hφ e.scope e.name
  simp only [Function.comp_apply, hfirst]
  cases declarationOf? ds e.scope e.name with
  | none => rfl
  | some first =>
    simp only [Option.map_some, beq_of_injective (Declaration.renumber_injective hφ) first e]
    split_ifs <;> rfl

theorem resolve?_renumber (scopes : List NodeId) (name : String) :
    resolve? (ds.map (Declaration.renumber φ)) (scopes.map φ) name =
      (resolve? ds scopes name).map φ := by
  rw [resolve?, resolve?, findSome?_map, map_findSome?]
  congr 1
  funext scope
  simp only [Function.comp_apply, declarationOf?_renumber hφ, Option.map_map]
  rfl

end Lookup

/-! ### References -/

def Reference.renumber (φ : NodeId → NodeId) (r : Reference) : Reference :=
  { r with node := φ r.node, target := r.target.map φ }

section References

variable (h : Mirror φ d e)
include h

theorem find?_isSignificant_mirror (hl : ∀ x ∈ l, x ≠ root) :
    (l.map φ).find? (isSignificant e) = (l.find? (isSignificant d)).map φ := by
  rw [← head?_filter, ← head?_filter, filter_isSignificant_mirror h hl, head?_map]

theorem openConditionals_mirror (hl : ∀ x ∈ l, x ≠ root) :
    openConditionals e (l.map φ) = openConditionals d l := by
  rw [openConditionals, openConditionals, foldr_map]
  induction l with
  | nil => rfl
  | cons x l ih =>
    obtain ⟨hx, hl⟩ := forall_mem_cons.mp hl
    simp only [foldr_cons, isOperator_mirror h hx, ih hl]

theorem isReference_mirror {before after : List NodeId} (hb : ∀ x ∈ before, x ≠ root)
    (ha : ∀ x ∈ after, x ≠ root) :
    isReference e (before.map φ) (after.map φ) = isReference d before after := by
  have hany : ∀ {l : List NodeId}, (∀ x ∈ l, x ≠ root) → ∀ p q : NodeId → Bool,
      (∀ x, x ≠ root → p (φ x) = q x) →
      ((l.find? (isSignificant d)).map φ).any p = (l.find? (isSignificant d)).any q := by
    intro l hl p q hpq
    cases hf : l.find? (isSignificant d) with
    | none => rfl
    | some x => exact hpq x (hl x (mem_of_find?_eq_some hf))
  simp only [isReference, isProperty, isObjectKey, find?_isSignificant_mirror h hb,
    find?_isSignificant_mirror h ha, openConditionals_mirror h hb]
  rw [hany hb (isOperator e · ".") (isOperator d · ".") fun x hx => isOperator_mirror h hx _,
    hany ha (isOperator e · ":") (isOperator d · ":") fun x hx => isOperator_mirror h hx _,
    hany hb (isKeyword e · "case") (isKeyword d · "case") fun x hx => isKeyword_mirror h hx _]

theorem referencesIn_mirror {ds : List Declaration} {scopes : List NodeId}
    {enter enter' : List NodeId → NodeId → List Reference} (before : List NodeId)
    (hb : ∀ x ∈ before, x ≠ root) (hl : ∀ x ∈ l, x ≠ root)
    (henter : ∀ x ∈ l, ∀ scopes,
      enter' (scopes.map φ) (φ x) = (enter scopes x).map (Reference.renumber φ)) :
    referencesIn e (ds.map (Declaration.renumber φ)) (scopes.map φ) enter' (before.map φ)
      (l.map φ) = (referencesIn d ds scopes enter before l).map (Reference.renumber φ) := by
  induction l generalizing before with
  | nil => rfl
  | cons x l ih =>
    obtain ⟨hx, hl⟩ := forall_mem_cons.mp hl
    obtain ⟨hex, henter⟩ := forall_mem_cons.mp henter
    have hdeclared : (ds.map (Declaration.renumber φ)).any (·.node == φ x) =
        ds.any (·.node == x) := by
      rw [any_map]
      congr 1
      funext e
      exact beq_of_injective h.injective e.node x
    have hrest := ih (x :: before) (forall_mem_cons.mpr ⟨hx, hb⟩) hl henter
    rw [map_cons] at hrest
    rw [map_cons, referencesIn, referencesIn, map_append, hrest, h.kind_eq x hx,
      hdeclared, isReference_mirror h hb hl, h.ownText_eq]
    congr 1
    simp only [resolve?_renumber h.injective]
    split
    · split_ifs <;> rfl
    · exact hex (x :: scopes)
    · exact hex scopes

theorem referencesBelow_mirror (hfree : ∀ x, root ∉ d.refs x) {ds : List Declaration}
    (hn : Shallow d.refs n x) (hm : Shallow d.refs m x) (scopes : List NodeId) :
    referencesBelow e (ds.map (Declaration.renumber φ)) m (scopes.map φ) (φ x) =
      (referencesBelow d ds n scopes x).map (Reference.renumber φ) := by
  induction n generalizing x m scopes with
  | zero => exact hn.elim
  | succ n ih =>
    obtain ⟨m, rfl⟩ := hm.exists_succ
    rw [referencesBelow, referencesBelow, h.branches_eq, flatMap_map, map_flatMap]
    refine flatMap_congr fun b hb => ?_
    have hmem : ∀ c ∈ b.nodes, c ∈ d.refs x := fun c hc => refs_of_branch hb hc
    rw [nodes_renumber]
    refine referencesIn_mirror h [] (fun x hx => by cases hx)
      (fun c hc hroot => hfree x (hroot ▸ hmem c hc)) fun c hc scopes => ?_
    exact ih (hn c (hmem c hc)) (hm c (hmem c hc)) scopes

theorem references_mirror (hfree : ∀ x, root ∉ d.refs x) (hs : Shallow d.refs d.size x)
    (ds : List Declaration) : references e (ds.map (Declaration.renumber φ)) (φ x) =
      (references d ds x).map (Reference.renumber φ) :=
  referencesBelow_mirror h hfree hs (hs.mono h.size_le) [x]

omit h in
theorem links_renumber (rs : List Reference) :
    links (rs.map (Reference.renumber φ)) = (links rs).map (Prod.map φ φ) := by
  rw [links, links, filterMap_map, map_filterMap]
  refine filterMap_congr fun r _ => ?_
  show (r.target.map φ).map (φ r.node, ·) = _
  cases r.target <;> rfl

omit h in
theorem freeNames_renumber (rs : List Reference) :
    freeNames (rs.map (Reference.renumber φ)) = freeNames rs := by
  rw [freeNames, freeNames, filter_map, map_map]
  have hnone : ((fun r : Reference => r.target.isNone) ∘ Reference.renumber φ) =
      fun r => r.target.isNone := by
    funext r
    simp [Reference.renumber]
  rw [hnone]
  rfl

end References

/-! ### New names -/

def Renaming.renumber (φ : NodeId → NodeId) (r : Renaming) : Renaming :=
  { r with declaration := r.declaration.renumber φ }

theorem assign_renumber (taken : List String) (es : List Declaration) :
    assign taken (es.map (Declaration.renumber φ)) =
      (assign taken es).map (Renaming.renumber φ) := by
  induction es generalizing taken with
  | nil => rfl
  | cons e es ih =>
    rw [map_cons, assign, assign, map_cons, ih]
    rfl

section

variable (h : Mirror φ d e)
include h

theorem renamingsBelow_mirror {ds : List Declaration} (hn : Shallow d.kids n x) (hm : Shallow d.kids m x) (taken : List String) :
    renamingsBelow e (ds.map (Declaration.renumber φ)) (φ global) m taken (φ x) =
      (renamingsBelow d ds global n taken x).map (Renaming.renumber φ) := by
  induction n generalizing x m taken with
  | zero => exact hn.elim
  | succ n ih =>
    obtain ⟨m, rfl⟩ := hm.exists_succ
    have hown : (if (φ x == φ global) = true then []
        else assign taken (namesOf (ds.map (Declaration.renumber φ)) (φ x))) =
        (if (x == global) = true then [] else assign taken (namesOf ds x)).map
          (Renaming.renumber φ) := by
      rw [beq_of_injective h.injective, namesOf_renumber h.injective, assign_renumber]
      split_ifs <;> rfl
    rw [renamingsBelow, renamingsBelow, hown, map_append, h.branches_eq, flatMap_map, map_map]
    congr 1
    have hkids : (d.branches x).flatMap (fun b => Branch.nodes (b.renumber φ)) =
        (d.kids x).map φ := by
      simp only [nodes_renumber, kids, map_flatMap]
    rw [hkids, flatMap_map, map_flatMap]
    exact flatMap_congr fun c hc => ih (hn c hc) (hm c hc) _

theorem follow_mirror (links : List (NodeId × NodeId)) :
    Mirror φ (follow links d) (follow (links.map (Prod.map φ φ)) e) := by
  rw [follow, follow, foldl_map]
  exact foldl_rel (r := Mirror φ) h fun l _ d e h => h.modifyNaming l.1 fun m => rfl

theorem rename_mirror (renamings : List Renaming) :
    Mirror φ (rename renamings d) (rename (renamings.map (Renaming.renumber φ)) e) := by
  rw [rename, rename, foldl_map]
  exact foldl_rel (r := Mirror φ) h fun r _ d e h => h.modifyNaming _ fun m => rfl

theorem renamedScript_mirror (hfree : ∀ x, root ∉ d.refs x)
    (hs : Shallow d.refs d.size x) (ds : List Declaration) :
    Mirror φ (newScript d ds x) (newScript e (ds.map (Declaration.renumber φ)) (φ x)) := by
  have hrefs := references_mirror h hfree hs ds
  have hlinks : linksOf e (ds.map (Declaration.renumber φ)) (φ x) =
      (linksOf d ds x).map (Prod.map φ φ) := by
    rw [linksOf, hrefs, repetitions_renumber h.injective, links_renumber, map_append]
  have hkids : Shallow d.kids d.size x := hs.of_subset fun y _ => d.kids_sub y
  have hnames : renamingsOf e (ds.map (Declaration.renumber φ)) (φ x)
      (freeOf e (ds.map (Declaration.renumber φ)) (φ x)) =
      (renamingsOf d ds x (freeOf d ds x)).map (Renaming.renumber φ) := by
    rw [freeOf, hrefs, freeNames_renumber]
    exact renamingsBelow_mirror h hkids (hkids.mono h.size_le) _
  rw [newScript, newScript, hlinks, hnames]
  exact rename_mirror (follow_mirror h _) _

/-! ### Spaces between braces -/

theorem openScope_mirror (scope : NodeId) : Mirror φ (openScope d scope) (openScope e (φ scope)) := by
  have hnew : φ d.size = e.size := by simpa using h.beyond 0
  have hcreate := (h.create (k := .requiredSpace) (Kind.isMedia_of_mem (by decide)) (d.place scope)
    (e.place (φ scope))).appendText d.size " "
  rw [hnew] at hcreate
  have hprepend := hcreate.prepend scope [.node d.size]
  rw [renumber_cons_node, hnew] at hprepend
  exact hprepend

end

section Written

variable {ds : List Declaration} {a a' b' : Document} {c : NodeId}
  (hds : declarations d script = .ok ds) (hu : d.UniqueOwner script)
  (hn : ∀ x, Reaches d.refs script x → (d.node x).naming? = none)
  (hk : d.kind script = .root)
  (hsep : Separated (newScript d ds script) (respelled d (newScript d ds script)) a' b')
include hds hu hn hsep

theorem shallow_uses (hx : Reaches d.refs script x ∨ IsNew (newScript d ds script) a' x) :
    Shallow a'.uses a'.size x := by
  have htwin : ∀ x, Reaches d.refs script x →
      Twin d a' b' (IsNew (newScript d ds script) a') x := fun x hx => twin_of_separated hds hu hn hsep hx
  rcases hx with hx | hx
  · refine (shallow_succ_of_twin htwin hsep.space hx (hu.shallow.reaches hx)).of_lt fun y hy => ?_
    rcases reaches_of_twin htwin hsep.space hx hy with hy | ⟨-, hy⟩
    · exact lt_of_lt_of_le (lt_newScript hu hy) hsep.size_le
    · exact hy
  · exact shallow_of_uses_eq_nil (hsep.space x hx).uses_eq hx.2

omit hds hn in
theorem mem_refs_of_scope (hreached : Reaches d.refs script scope) (hscope : d.kind scope = .scope)
    (hc : c ∈ a'.refs scope) : c ∈ d.refs scope ∨ IsNew (newScript d ds script) a' c := by
  have hrefs : b'.refs scope = d.refs scope := by
    rw [hsep.refs_eq, refs, node_respelled, spell_of_ne (by rw [← kind, hscope]; decide)]
    rfl
  rw [← hrefs]
  exact (hsep.scope scope (lt_newScript hu hreached) (by rw [kind_newScript, hscope])).mem_references hc

include hk

omit hds hn in
theorem node_script : a'.node script = (newScript d ds script).node script :=
  (hsep.other script (lt_newScript hu .refl) (by rw [kind_newScript, hk]; decide)).1

theorem script_not_mem_uses (hx : Reaches d.refs script x) : script ∉ a'.uses x := by
  intro hc
  rcases (twin_of_separated hds hu hn hsep hx).mem_uses hc with hc | ⟨hkt, -⟩ | hc
  · exact hu.top_free hx hc
  · rw [kind, node_script hu hk hsep, ← kind, kind_newScript, hk] at hkt
    cases hkt
  · exact not_lt.mpr hc.1 (lt_newScript hu .refl)

theorem not_reaches_script (hx : Reaches d.refs script x ∨ IsNew (newScript d ds script) a' x)
    (hne : x ≠ script) : ¬ Reaches a'.uses x script := by
  intro hr
  rcases Relation.ReflTransGen.cases_tail hr with heq | ⟨p, hp, hc⟩
  · exact hne heq.symm
  have hlast : Reaches d.refs script p ∨ a'.uses p = [] := by
    rcases hx with hx | hx
    · have htwin := fun x hx => twin_of_separated (x := x) hds hu hn hsep hx
      exact (reaches_of_twin htwin hsep.space hx hp).imp_right And.left
    · rcases Reaches.eq_or_child hp with rfl | ⟨y, hy, -⟩
      · exact .inr (hsep.space x hx).uses_eq
      · rw [(hsep.space x hx).uses_eq] at hy
        cases hy
  rcases hlast with hlast | hlast
  · exact script_not_mem_uses hds hu hn hk hsep hlast hc
  · rw [hlast] at hc
    cases hc

theorem opensWithBrace_mirror (hroot : script = root) (h : Mirror φ a' e)
    (hreached : Reaches d.refs script scope) (hscope : d.kind scope = .scope) :
    opensWithBrace e (φ scope) = opensWithBrace a' scope := by
  rw [opensWithBrace, opensWithBrace, h.children_eq]
  cases hc : a'.children scope with
  | nil => rfl
  | cons f more =>
    cases f with
    | text s => rfl
    | node first =>
      have hmem : first ∈ a'.refs scope := refs_of_children (by rw [hc]; simp)
      have hfirst := mem_refs_of_scope hu hsep hreached hscope hmem
      have hne : first ≠ script := by
        rintro rfl
        rcases hfirst with hfirst | hfirst
        · exact hu.top_free hreached hfirst
        · exact not_lt.mpr hfirst.1 (lt_newScript hu .refl)
      have hfirst := hfirst.imp_left hreached.tail
      show ((e.sourceOf (φ first)).toList.head? == some '\x7b') = _
      rw [h.sourceOf_eq (hroot ▸ not_reaches_script hds hu hn hk hsep hfirst hne)
        (shallow_uses hds hu hn hsep hfirst)]

theorem foldl_openScope_mirror (hroot : script = root)
    (hl : ∀ s ∈ l, Reaches d.refs script s ∧ d.kind s = .scope) (h : Mirror φ a' e) :
    Mirror φ (l.foldl (fun d s => if opensWithBrace d s then openScope d s else d) a')
      ((l.map φ).foldl (fun d s => if opensWithBrace d s then openScope d s else d) e) := by
  induction l generalizing a' b' e with
  | nil => exact h
  | cons s l ih =>
    obtain ⟨⟨hreached, hscope⟩, hl⟩ := forall_mem_cons.mp hl
    have hlt : s < (newScript d ds script).size := lt_newScript hu hreached
    rw [map_cons, foldl_cons, foldl_cons,
      opensWithBrace_mirror hds hu hn hk hsep hroot h hreached hscope]
    split_ifs
    · refine ih (hsep.openScope hlt ?_ (by rw [kind_newScript, hscope])) hl
        (openScope_mirror h s)
      rw [size_respelled, size_newScript]
    · exact ih hsep hl h

end Written

/-! ### The whole script -/

theorem minify_of_ok {ds : List Declaration}
    (hds : declarations d script = .ok ds) : ∃ report, minify script d = .ok report
      (separateBraces (newScript d ds script) script) := by
  obtain ⟨report, d', h⟩ : ∃ report d', minify script d = .ok report d' := by
    rw [minify, get_bind, hds]
    exact ⟨_, _, rfl⟩
  obtain ⟨ds', hds', -, rfl⟩ := minify_eq_ok h
  rw [hds] at hds'
  cases hds'
  exact ⟨report, h⟩

theorem minify_of_error {err : ScopeError} (hds : declarations d script = .error err) :
    minify script d = .error (.scope err.place err.fault) d := by
  rw [minify, get_bind, hds]
  rfl

theorem node_renamedScript_script {ds : List Declaration}
    (hds : declarations d script = .ok ds) (hu : d.UniqueOwner script) :
    (newScript d ds script).node script = d.node script :=
  newScript_of_not_mem (script_not_renamed hds hu).1 (script_not_renamed hds hu).2

theorem separateBraces_mirror {ds : List Declaration} (hds : declarations d root = .ok ds)
    (hu : d.UniqueOwner root) (hn : ∀ x, Reaches d.refs root x → (d.node x).naming? = none)
    (hk : d.kind root = .root) (hfree : ∀ x, root ∉ d.refs x) (h : Mirror φ (newScript d ds root) e) :
    Mirror φ (separateBraces (newScript d ds root) root) (separateBraces e (φ root)) := by
  have hkids : (newScript d ds root).kids = d.kids := funext fun x => by
    rw [kids, branches, renamedScript_frame Node.branches fun _ _ => rfl]
    rfl
  have hscopes := h.descendants_eq (x := root)
    (fun x hx => hfree x (d.kids_sub x (hkids ▸ hx)))
    (by rw [hkids, size_newScript]; exact hu.shallow_kids) [.scope] []
  have hmem : ∀ s ∈ (newScript d ds root).descendants root [.scope] [],
      Reaches d.refs root s ∧ d.kind s = .scope := fun s hs => by
    rw [scopes_newScript] at hs
    obtain ⟨hs, hkind⟩ := mem_filter.mp hs
    exact ⟨reaches_of_enc (encloses_of_below hs), by simpa [hasKind] using hkind⟩
  have hfold := foldl_openScope_mirror hds hu hn hk
    (.refl fun x hk => node_respelled_of_scope hds hu hk) rfl hmem h
  rw [← hscopes] at hfold
  exact hfold

theorem minify_alike (h : Mirror φ d e) (hu : d.UniqueOwner root) (hk : d.kind root = .root)
    (hp : ∀ x, (d.node x).payload = .none) (hfree : ∀ x, root ∉ d.refs x) :
    Alike Error.SameFault (fun _ d _ e => Mirror φ d e ∧ Ready d) (minify root d)
      (minify (φ root) e) := by
  have hn : ∀ x, Reaches d.refs root x → (d.node x).naming? = none := fun x _ => by
    rw [Node.naming?, hp]
  have hfound := declarations_alike h hfree hu.shallow
  generalize hds : declarations d root = found at hfound
  generalize hds' : declarations e (φ root) = found' at hfound
  cases hfound with
  | error herr =>
    rw [minify_of_error hds, minify_of_error hds']
    exact .error ⟨_, by rw [herr]; rfl⟩
  | @ok ds ds' heq =>
    subst heq
    obtain ⟨report, hm⟩ := minify_of_ok hds
    obtain ⟨report', hm'⟩ := minify_of_ok hds'
    rw [hm, hm']
    have hrenamed := renamedScript_mirror h hfree hu.shallow ds
    obtain ⟨spaced, -, hsep, -⟩ := exists_sourceOf_eq hds hu hn
    refine .ok ⟨separateBraces_mirror hds hu hn hk hfree hrenamed, ?_, ?_,
      shallow_uses hds hu hn hsep (.inl .refl)⟩
    · rw [kind, node_script hu hk hsep, ← kind, kind_newScript, hk]
    · rw [node_script hu hk hsep, node_renamedScript_script hds hu, hp]

theorem media_grammar : grammar.Media :=
  Grammar.media_of_subset fun state => by cases state <;> decide

theorem process_alike {region : NodeId} (path : String) (hlt : region < e.size)
    (hb : e.branches region = [b]) (hn : b.nodes = []) (through enter : List Kind) :
    Alike Error.SameFault (fun _ d _ e' => Mirror (standing region e.size) d e' ∧ Ready d)
      (process [] [] root (ofSource path b.text)) (process through enter region e) := by
  refine (Grammar.tokenize_alike media_grammar path hlt hb hn through enter).bind ?_
  rintro _ d1 _ e1 - ⟨h1, htokens⟩
  have htrim := compress_trimmed htokens.root_free h1 htokens.uniqueOwner.shallow
  refine Alike.bind (R := fun _ d _ e => d = compress d1 root ∧ e = compress e1 region)
    (.ok ⟨rfl, rfl⟩) ?_
  rintro _ _ _ _ - ⟨rfl, rfl⟩
  refine (minify_alike htrim.toMirror ?_ ?_ ?_ ?_).bind fun _ _ _ _ _ h => .ok h
  · exact htokens.uniqueOwner.of_sublist htrim.size_eq htrim.refs_sublist
  · rw [htrim.kinds_eq, htokens.kind_eq]
  · exact fun x => by rw [htrim.payload_eq, htokens.payload_eq]
  · exact fun x hx => htokens.root_free x ((htrim.refs_sublist x).subset hx)

end Script

end Stencil
