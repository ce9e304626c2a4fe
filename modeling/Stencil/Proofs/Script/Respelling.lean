import Stencil.Script.References
import Stencil.Proofs.Script.Declared

/-!
# Scripts with other names

What a script declares and refers to is found by its keywords, operators and brackets, and never by how
an identifier is spelled. So a script in which only the spelling of identifiers differs has declarations
at the same nodes in the same scopes (`declarations_respell`), and its references stand at the same
nodes inside the same scopes (`sites_respell`).
-/

namespace Stencil.Script

open Document List

variable {d d' : Document} {after before found l : List NodeId} {c id scope script : NodeId}
  {levels : Nat}

/-- The second document has the tokens of the first, the spelling of identifiers apart. -/
structure SameTokens (d d' : Document) : Prop where
  size_eq : d'.size = d.size
  kind_eq : ∀ id, d'.kind id = d.kind id
  node_eq : ∀ id, d.kind id ≠ .identifier → d'.node id = d.node id

/-- The declaration with the name that its node has in a document. -/
def Declaration.respell (d : Document) (e : Declaration) : Declaration :=
  { e with name := d.ownText e.node }

/-- Declarations with the names that their nodes have in a document. -/
abbrev respell (d : Document) (ds : List Declaration) : List Declaration :=
  ds.map (Declaration.respell d)

namespace SameTokens

section

variable (h : SameTokens d d') (hk : d.kind id ≠ .identifier)
include h hk

theorem ownText_eq : d'.ownText id = d.ownText id := by
  simp only [ownText, children, h.node_eq id hk]

theorem branches_eq : d'.branches id = d.branches id := by
  simp only [branches, h.node_eq id hk]

theorem childNodes_eq : d'.childNodes id = d.childNodes id := by
  simp only [childNodes, children, h.node_eq id hk]

end

section

variable (h : SameTokens d d')
include h

theorem isSignificant_eq : isSignificant d' = isSignificant d := by
  funext id
  simp only [isSignificant, h.kind_eq]

theorem isKeyword_eq (word : String) : isKeyword d' id word = isKeyword d id word := by
  simp only [isKeyword, h.kind_eq]
  by_cases hk : d.kind id = .keyword
  · rw [h.ownText_eq (by rw [hk]; decide)]
  · rw [beq_eq_false_iff_ne.mpr hk, Bool.false_and, Bool.false_and]

theorem operatorText_eq (hk : d.kind id = .operator) : operatorText d' id = operatorText d id := by
  rw [operatorText, operatorText, h.ownText_eq (by rw [hk]; decide)]

theorem isOperator_eq (op : String) : isOperator d' id op = isOperator d id op := by
  simp only [isOperator, h.kind_eq]
  by_cases hk : d.kind id = .operator
  · rw [h.operatorText_eq hk]
  · rw [beq_eq_false_iff_ne.mpr hk, Bool.false_and, Bool.false_and]

theorem endsExpression_eq : endsExpression d' id = endsExpression d id := by
  simp only [endsExpression, h.kind_eq]
  split
  case h_9 hk => rw [h.ownText_eq (by rw [hk]; decide)]
  case h_10 hk => rw [h.operatorText_eq hk]
  all_goals rfl

theorem startsExpression_eq : startsExpression d' id = startsExpression d id := by
  simp only [startsExpression, h.kind_eq]

theorem hasLineBreak_eq (hk : d.kind id ≠ .identifier) : hasLineBreak d' id = hasLineBreak d id := by
  rw [hasLineBreak, hasLineBreak, h.ownText_eq hk]

theorem skip_eq (p : Progress) (hs : isSignificant d id = false) : p.skip d' id = p.skip d id := by
  have hk : d.kind id ≠ .identifier := by
    intro hk
    simp [isSignificant, hk, Kind.isScriptSpace] at hs
  rw [Progress.skip, Progress.skip, h.hasLineBreak_eq hk]

theorem meet_eq (p : Progress) : p.meet d' id = p.meet d id := by
  simp only [Progress.meet, h.startsExpression_eq, h.endsExpression_eq]

theorem parameterNodes_eq_ok {wantComma : Bool} (hf : parameterNodes d wantComma l = .ok found) :
    parameterNodes d' wantComma l = .ok found := by
  induction l generalizing wantComma found with
  | nil => exact hf
  | cons id more ih =>
    rw [parameterNodes] at hf ⊢
    rw [h.kind_eq, h.isOperator_eq]
    split_ifs at hf ⊢ with hs hi hc
    · exact ih hf
    · obtain ⟨rest, hr, hf⟩ := except_bind.mp hf
      exact except_bind.mpr ⟨rest, ih hr, hf⟩
    · exact ih hf

theorem functionHead {list body : NodeId}
    (hh : FunctionHead d after list body found) : FunctionHead d' after list body found := by
  obtain ⟨name, rest, ht, hname⟩ := hh.tokens
  refine ⟨⟨name, rest, by rw [h.isSignificant_eq, ht], ?_⟩, ?_, ?_, ?_⟩
  · simpa only [h.kind_eq] using hname
  · rw [h.kind_eq, hh.list_kind]
  · rw [h.kind_eq, hh.body_kind]
  · rw [h.childNodes_eq (by rw [hh.list_kind]; decide)]
    exact h.parameterNodes_eq_ok hh.found_eq

theorem past_eq (p : Progress) (isPrivate : Bool) : p.past d' isPrivate id = p.past d isPrivate id := by
  unfold Progress.past
  rw [h.isSignificant_eq, h.kind_eq, h.meet_eq]
  refine ite_congr rfl (fun hs => h.skip_eq p (by simpa using hs)) fun _ => ?_
  refine ite_congr rfl (fun hk => ?_) fun _ => ite_congr rfl (fun ho => ?_) fun _ => rfl
  · rw [h.ownText_eq (by rw [hk]; decide)]
  · rw [h.operatorText_eq ho]

theorem foundAt_respell {enter enter' : NodeId → NodeId → Except ScopeError (List Declaration)}
    (henter : ∀ {scope id r}, d.kind id ≠ .identifier → enter scope id = .ok r →
      enter' scope id = .ok (respell d' r)) {p : Progress} {more : List NodeId} {own : List Declaration}
    (ho : foundAt d scope enter p id more = .ok own) :
    foundAt d' scope enter' p id more = .ok (respell d' own) := by
  unfold foundAt at ho ⊢
  rw [h.isSignificant_eq, h.kind_eq, h.meet_eq]
  by_cases hs : (!isSignificant d id) = true
  · rw [if_pos hs] at ho ⊢
    cases ho
    rfl
  rw [if_neg hs] at ho ⊢
  by_cases hk : d.kind id = .keyword
  · rw [if_pos hk] at ho ⊢
    rw [h.ownText_eq (by rw [hk]; decide)]
    by_cases hf : (d.ownText id == "function") = true
    · rw [if_pos hf] at ho ⊢
      obtain ⟨list, body, found, hh, rfl⟩ := parameters_eq_ok.mp ho
      refine parameters_eq_ok.mpr ⟨list, body, found, h.functionHead hh, ?_⟩
      simp only [respell, map_map, Function.comp_def, Declaration.respell]
    · rw [if_neg hf] at ho ⊢
      cases ho
      rfl
  rw [if_neg hk] at ho ⊢
  by_cases hi : d.kind id = .identifier
  · rw [if_pos hi] at ho ⊢
    cases ho
    by_cases ha : (p.meet d id).armed = true
    · rw [if_pos ha, if_pos ha]
      rfl
    · rw [if_neg ha, if_neg ha]
      rfl
  rw [if_neg hi] at ho ⊢
  by_cases hop : d.kind id = .operator
  · rw [if_pos hop] at ho ⊢
    cases ho
    rfl
  · rw [if_neg hop] at ho ⊢
    exact henter hi ho

theorem declarationsIn_respell {isPrivate : Bool}
    {enter enter' : NodeId → NodeId → Except ScopeError (List Declaration)}
    (henter : ∀ {scope id r}, d.kind id ≠ .identifier → enter scope id = .ok r →
      enter' scope id = .ok (respell d' r)) {p : Progress} {r : List Declaration}
    (hr : declarationsIn d isPrivate scope enter p l = .ok r) :
    declarationsIn d' isPrivate scope enter' p l = .ok (respell d' r) := by
  induction l generalizing p r with
  | nil =>
    cases hr
    rfl
  | cons id more ih =>
    obtain ⟨own, rest, ho, hrest, rfl⟩ := declIn_cons_eq_ok.mp hr
    refine declIn_cons_eq_ok.mpr ⟨_, _, h.foundAt_respell henter ho, ?_,
      map_append⟩
    rw [h.past_eq]
    exact ih hrest

theorem declarationsBelow_respell {global : NodeId}
    {r : List Declaration} (hb : d'.branches id = d.branches id)
    (hr : declarationsBelow d global levels scope id = .ok r) :
    declarationsBelow d' global levels scope id = .ok (respell d' r) := by
  induction levels generalizing scope id r with
  | zero =>
    cases hr
    rfl
  | succ levels ih =>
    obtain ⟨rs, hrs, rfl⟩ := below_succ_eq_ok.mp hr
    refine below_succ_eq_ok.mpr ⟨rs.map (respell d'), ?_, map_flatten⟩
    rw [hb, forall₂_map_right_iff]
    exact hrs.imp fun b r hr =>
      h.declarationsIn_respell (fun hk hr => ih (h.branches_eq hk) hr) hr

theorem declarations_respell {ds : List Declaration}
    (hb : d'.branches script = d.branches script) (hr : declarations d script = .ok ds) :
    declarations d' script = .ok (respell d' ds) := by
  rw [declarations, h.size_eq]
  exact h.declarationsBelow_respell hb hr

end

end SameTokens

/-- A place where a name is looked up: an identifier that declares nothing, and the scopes around
it, the innermost first. -/
structure Site where
  scopes : List NodeId
  node : NodeId
  deriving DecidableEq, Repr

/-- The sites at or below one node of a list, with the nodes on both sides, from the nearest on. -/
def sitesAt (d : Document) (ds : List Declaration) (scopes : List NodeId)
    (enter : (scopes : List NodeId) → NodeId → List Site) (before : List NodeId) (id : NodeId)
    (after : List NodeId) : List Site :=
  if d.kind id = .identifier then
    if !ds.any (·.node == id) && isReference d before after then [{ scopes, node := id }] else []
  else enter (if d.kind id = .scope then id :: scopes else scopes) id

/-- The sites in a list of nodes, with `before` the nodes in front of it, the nearest first. -/
def sitesIn (d : Document) (ds : List Declaration) (scopes : List NodeId)
    (enter : (scopes : List NodeId) → NodeId → List Site) :
    (before : List NodeId) → List NodeId → List Site
  | _, [] => []
  | before, id :: more =>
    sitesAt d ds scopes enter before id more ++ sitesIn d ds scopes enter (id :: before) more

def sitesBelow (d : Document) (ds : List Declaration) :
    (levels : Nat) → (scopes : List NodeId) → NodeId → List Site
  | 0, _, _ => []
  | levels + 1, scopes, id =>
    (d.branches id).flatMap fun b => sitesIn d ds scopes (sitesBelow d ds levels) [] b.nodes

def sites (d : Document) (ds : List Declaration) (script : NodeId) : List Site :=
  sitesBelow d ds d.size [script] script

def Site.reference (d : Document) (ds : List Declaration) (s : Site) : Reference :=
  { node := s.node, name := d.ownText s.node,
    target := resolve? ds s.scopes (d.ownText s.node) }

variable {ds : List Declaration} {scopes : List NodeId}

theorem referencesIn_eq_sites {enter : List NodeId → NodeId → List Reference}
    {enter' : List NodeId → NodeId → List Site}
    (h : ∀ scopes id, enter scopes id = (enter' scopes id).map (Site.reference d ds))
    (before l : List NodeId) : referencesIn d ds scopes enter before l =
      (sitesIn d ds scopes enter' before l).map (Site.reference d ds) := by
  induction l generalizing before with
  | nil => rfl
  | cons id more ih =>
    rw [referencesIn, sitesIn, map_append, ih, sitesAt]
    congr 1
    split
    case h_1 hk =>
      rw [if_pos hk]
      split_ifs <;> rfl
    case h_2 hk => rw [if_neg (by rw [hk]; decide), if_pos hk, h]
    case h_3 hi hk => rw [if_neg hi, if_neg hk, h]

theorem referencesBelow_eq_sites (levels : Nat) (scopes : List NodeId) (id : NodeId) :
    referencesBelow d ds levels scopes id =
      (sitesBelow d ds levels scopes id).map (Site.reference d ds) := by
  induction levels generalizing scopes id with
  | zero => rfl
  | succ levels ih =>
    simp only [referencesBelow, sitesBelow, map_flatMap, referencesIn_eq_sites ih]

theorem references_eq_sites (d : Document) (ds : List Declaration) (script : NodeId) :
    references d ds script = (sites d ds script).map (Site.reference d ds) :=
  referencesBelow_eq_sites _ _ _

theorem mem_sitesAt {enter : List NodeId → NodeId → List Site} {s : Site} (h : s ∈ sitesAt d ds scopes enter before c after) :
      (d.kind c = .identifier ∧ c ∉ ds.map (·.node) ∧ s = { scopes, node := c }) ∨
      (d.kind c ≠ .identifier ∧
        s ∈ enter (if d.kind c = .scope then c :: scopes else scopes) c) := by
  rw [sitesAt] at h
  by_cases hk : d.kind c = .identifier
  · rw [if_pos hk] at h
    split_ifs at h with hr
    · refine .inl ⟨hk, fun hmem => ?_, mem_singleton.mp h⟩
      obtain ⟨e, he, rfl⟩ := mem_map.mp hmem
      simp only [Bool.and_eq_true, Bool.not_eq_true', any_eq_false, beq_iff_eq] at hr
      exact hr.1 e he rfl
    · cases h
  · rw [if_neg hk] at h
    exact .inr ⟨hk, h⟩

theorem mem_sitesIn {enter : List NodeId → NodeId → List Site} {s : Site}
    (h : s ∈ sitesIn d ds scopes enter before l) : ∃ c ∈ l, ∃ before after,
      s ∈ sitesAt d ds scopes enter before c after := by
  induction l generalizing before with
  | nil => cases h
  | cons c more ih =>
    rcases mem_append.mp h with h | h
    · exact ⟨c, mem_cons_self, before, more, h⟩
    · obtain ⟨c', hc', h⟩ := ih h
      exact ⟨c', mem_cons_of_mem _ hc', h⟩

/-- Where a site is that is found below `id`, inside `scopes`. -/
structure Site.Located (d : Document) (ds : List Declaration) (scopes : List NodeId) (id : NodeId)
    (s : Site) : Prop where
  kind_eq : d.kind s.node = .identifier
  not_declared : s.node ∉ ds.map (·.node)
  node_below : ∃ c ∈ d.kids id, Reaches (entered d) c s.node
  /-- The scopes on the way down are inside each other. -/
  nested : ∃ inner, s.scopes = inner ++ scopes ∧ inner.Pairwise (fun a b => d.Encloses b a) ∧
    ∀ a ∈ inner, d.Encloses id a

theorem Site.Located.outward {s : Site} (hc : c ∈ d.kids id) (hk : d.kind c ≠ .identifier)
    (h : s.Located d ds (if d.kind c = .scope then c :: scopes else scopes) c) :
    s.Located d ds scopes id := by
  obtain ⟨c', hc', hr⟩ := h.node_below
  refine ⟨h.kind_eq, h.not_declared, ⟨c, hc, .head (by rw [entered_of_ne hk]; exact hc') hr⟩, ?_⟩
  obtain ⟨inner, hs, hn, hin⟩ := h.nested
  have hout : ∀ a ∈ inner, d.Encloses id a := fun a ha => .head hc (hin a ha)
  split_ifs at hs
  · refine ⟨inner ++ [c], by rw [hs, append_assoc]; rfl, ?_, ?_⟩
    · exact pairwise_append.mpr ⟨hn, pairwise_singleton _ _, fun a ha b hb => by
        rw [mem_singleton.mp hb]; exact hin a ha⟩
    · intro a ha
      rcases mem_append.mp ha with ha | ha
      · exact hout a ha
      · rw [mem_singleton.mp ha]; exact .single hc
  · exact ⟨inner, hs, hn, hout⟩

theorem located_of_site {s : Site}
    (h : s ∈ sitesBelow d ds levels scopes id) : s.Located d ds scopes id := by
  induction levels generalizing scopes id with
  | zero => cases h
  | succ levels ih =>
    obtain ⟨b, hb, h⟩ := mem_flatMap.mp h
    obtain ⟨c, hc, before, after, h⟩ := mem_sitesIn h
    rcases mem_sitesAt h with ⟨hk, hd, rfl⟩ | ⟨hk, h⟩
    · exact ⟨hk, hd, ⟨c, mem_kids.mpr ⟨b, hb, hc⟩, .refl⟩, [], rfl, .nil,
        fun a ha => by cases ha⟩
    · exact (ih h).outward (mem_kids.mpr ⟨b, hb, hc⟩) hk

theorem reaches_of_mem_sitesAt {s : Site}
    (h : s ∈ sitesAt d ds scopes (sitesBelow d ds levels) before c after) :
    Reaches d.kids c s.node := by
  rcases mem_sitesAt h with ⟨-, -, rfl⟩ | ⟨-, h⟩
  · exact .refl
  · obtain ⟨c', hc', hr⟩ := (located_of_site h).node_below
    exact .head hc' (hr.mono (entered_subset_kids d))

theorem reaches_of_mem_sitesIn {x : NodeId}
    (h : x ∈ (sitesIn d ds scopes (sitesBelow d ds levels) before l).map (·.node)) :
    ∃ c ∈ l, Reaches d.kids c x := by
  obtain ⟨s, hs, rfl⟩ := mem_map.mp h
  obtain ⟨c, hc, _, _, hs⟩ := mem_sitesIn hs
  exact ⟨c, hc, reaches_of_mem_sitesAt hs⟩

section Nodup

variable {top : NodeId} (hu : d.UniqueOwner top)
include hu

theorem sitesIn_nodup (ht : Reaches d.refs top id)
    (henter : ∀ {scopes c}, c ∈ d.kids id → ((sitesBelow d ds levels scopes c).map (·.node)).Nodup)
    (hl : l.Sublist (d.kids id)) :
    ((sitesIn d ds scopes (sitesBelow d ds levels) before l).map (·.node)).Nodup := by
  induction l generalizing before with
  | nil => exact nodup_nil
  | cons c more ih =>
    rw [sitesIn, map_append]
    refine hu.nodup_append (k := [c]) ht hl (fun x hx => ?_) (fun _ => reaches_of_mem_sitesIn) ?_
      (ih ((sublist_cons_self c more).trans hl))
    · obtain ⟨s, hs, rfl⟩ := mem_map.mp hx
      exact ⟨c, mem_cons_self, reaches_of_mem_sitesAt hs⟩
    · rw [sitesAt]
      split_ifs
      · exact nodup_singleton _
      · exact nodup_nil
      all_goals exact henter (hl.subset mem_cons_self)

theorem sitesBelow_nodup (ht : Reaches d.refs top id) :
    ((sitesBelow d ds levels scopes id).map (·.node)).Nodup := by
  induction levels generalizing scopes id with
  | zero => exact nodup_nil
  | succ levels ih =>
    -- branch by branch: two branches have different children
    have key : ∀ bs : List Branch, bs.Sublist (d.branches id) → ((bs.flatMap fun b =>
        sitesIn d ds scopes (sitesBelow d ds levels) [] b.nodes).map (·.node)).Nodup := by
      intro bs hbs
      induction bs with
      | nil => exact nodup_nil
      | cons b bs ihs =>
        have hsub := hbs.flatMap Branch.nodes
        rw [flatMap_cons, map_append]
        refine hu.nodup_append ht hsub (fun _ => reaches_of_mem_sitesIn) (fun x hx => ?_)
          (sitesIn_nodup hu ht (fun hc => ih (ht.tail (d.kids_sub id hc)))
            ((sublist_append_left _ _).trans hsub))
          (ihs ((sublist_cons_self b bs).trans hbs))
        rw [map_flatMap] at hx
        obtain ⟨b', hb', hx⟩ := mem_flatMap.mp hx
        obtain ⟨c, hc, hr⟩ := reaches_of_mem_sitesIn hx
        exact ⟨c, mem_flatMap.mpr ⟨b', hb', hc⟩, hr⟩
    exact key _ (List.Sublist.refl _)

end Nodup

theorem sites_nodup (hu : d.UniqueOwner script) : ((sites d ds script).map (·.node)).Nodup :=
  sitesBelow_nodup hu .refl

namespace SameTokens

theorem isReference_eq (h : SameTokens d d') (before after : List NodeId) :
    isReference d' before after = isReference d before after := by
  have hkw : ∀ w, (isKeyword d' · w) = (isKeyword d · w) := fun w => by
    funext id
    exact h.isKeyword_eq w
  simp only [isReference, isProperty, isObjectKey, openConditionals, h.isSignificant_eq,
    h.isOperator_eq, hkw]

theorem sitesIn_eq (h : SameTokens d d') {enter enter' : List NodeId → NodeId → List Site}
    (henter : ∀ scopes id, d.kind id ≠ .identifier → enter' scopes id = enter scopes id)
    (before l : List NodeId) : sitesIn d' (respell d' ds) scopes enter' before l =
      sitesIn d ds scopes enter before l := by
  induction l generalizing before with
  | nil => rfl
  | cons id more ih =>
    rw [sitesIn, sitesIn, ih, sitesAt, sitesAt, h.kind_eq, h.isReference_eq, respell, any_map]
    congr 1
    exact ite_congr rfl (fun _ => rfl) fun hk => henter _ _ hk

theorem sitesBelow_eq (h : SameTokens d d') (levels : Nat) (scopes : List NodeId)
    (hb : d'.branches id = d.branches id) :
    sitesBelow d' (respell d' ds) levels scopes id = sitesBelow d ds levels scopes id := by
  induction levels generalizing scopes id with
  | zero => rfl
  | succ levels ih =>
    rw [sitesBelow, sitesBelow, hb]
    congr 1
    funext b
    exact h.sitesIn_eq (fun scopes id hk => ih scopes (h.branches_eq hk)) [] b.nodes

theorem sites_respell (h : SameTokens d d') (hb : d'.branches script = d.branches script) :
    sites d' (respell d' ds) script = sites d ds script := by
  rw [sites, h.size_eq]
  exact h.sitesBelow_eq _ _ hb

end SameTokens

end Stencil.Script
