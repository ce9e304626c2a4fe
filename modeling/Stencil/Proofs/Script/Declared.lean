import Stencil.Script.Declarations
import Stencil.Proofs.Doc.Ownership
import Stencil.Proofs.Outcome

/-!
# Where declarations come from

A declaration in a list of tokens has one of three origins: an identifier of the list that is armed,
a parameter of a function whose keyword is in the list, or a token of the list that is entered
(`mem_declarationsIn`). From this follow the facts about the declarations of a script that renaming
rests on: each is at an identifier below the script and has its text as its name, its scope is
private, and where every node has one owner no identifier is declared twice
(`declarations_nodup`).
-/

namespace Stencil.Script

open Document List

variable {after before found l more rest : List NodeId} {body global id keyword list : NodeId}
  {b : Branch} {levels : Nat} {d : Document} {isPrivate : Bool} {scope : NodeId}
  {enter : NodeId → NodeId → Except ScopeError (List Declaration)} {p : Progress}

/-! ### Functions -/

/-- What follows the keyword of a function: a name or none, the parameters in parentheses, the
body. -/
structure FunctionHead (d : Document) (after : List NodeId) (list body : NodeId)
    (found : List NodeId) : Prop where
  tokens : ∃ name rest, after.filter (isSignificant d) = name ++ list :: body :: rest ∧
    (name = [] ∨ ∃ n, name = [n] ∧ d.kind n = .identifier)
  list_kind : d.kind list = .parentheses
  body_kind : d.kind body = .scope
  found_eq : parameterNodes d false (d.childNodes list) = .ok found

theorem nextToken_eq_ok : nextToken d keyword l = .ok (id, rest) ↔ l = id :: rest := by
  cases l with
  | nil => simp [nextToken]
  | cons a l => simp [nextToken]

theorem parameterNodes_eq_ok {wantComma : Bool}
    (h : parameterNodes d wantComma l = .ok found) : found.Sublist l ∧
      (∀ x ∈ found, d.kind x = .identifier) ∧
      ∀ x ∈ l, isSignificant d x = false ∨ d.kind x = .identifier ∨ isOperator d x "," = true := by
  induction l generalizing wantComma found with
  | nil =>
    cases h
    simp
  | cons id more ih =>
    rw [parameterNodes] at h
    by_cases hs : (d.kind id).isScriptSpace = true
    · rw [if_pos hs] at h
      obtain ⟨hsub, hid, hall⟩ := ih h
      refine ⟨hsub.cons _, hid, forall_mem_cons.mpr ⟨.inl ?_, hall⟩⟩
      rw [isSignificant, hs]
      rfl
    rw [if_neg hs] at h
    by_cases hi : (d.kind id == .identifier && !wantComma) = true
    · rw [if_pos hi] at h
      obtain ⟨rest, hr, h⟩ := except_bind.mp h
      rw [← except_pure_eq_ok.mp h]
      obtain ⟨hsub, hid, hall⟩ := ih hr
      have hk : d.kind id = .identifier := by
        simp only [Bool.and_eq_true, beq_iff_eq] at hi
        exact hi.1
      exact ⟨hsub.cons_cons _, forall_mem_cons.mpr ⟨hk, hid⟩,
        forall_mem_cons.mpr ⟨.inr (.inl hk), hall⟩⟩
    rw [if_neg hi] at h
    by_cases hc : (wantComma && isOperator d id ",") = true
    · rw [if_pos hc] at h
      obtain ⟨hsub, hid, hall⟩ := ih h
      simp only [Bool.and_eq_true] at hc
      exact ⟨hsub.cons _, hid, forall_mem_cons.mpr ⟨.inr (.inr hc.2), hall⟩⟩
    · rw [if_neg hc] at h
      cases h

namespace FunctionHead

section

variable (h : FunctionHead d after list body found)
include h

theorem list_mem : list ∈ after := by
  obtain ⟨name, rest, ht, -⟩ := h.tokens
  exact mem_of_mem_filter (by rw [ht]; simp)

theorem body_mem : body ∈ after := by
  obtain ⟨name, rest, ht, -⟩ := h.tokens
  exact mem_of_mem_filter (by rw [ht]; simp)

theorem found_sublist : found.Sublist (d.childNodes list) :=
  (parameterNodes_eq_ok h.found_eq).1

theorem not_shared {after' found' : List NodeId} {body' : NodeId}
    (h' : FunctionHead d after' list body' found')
    (heq : after = before ++ keyword :: after') (hk : d.kind keyword = .keyword)
    (hn : after.Nodup) : False := by
  have hs : isSignificant d keyword = true := by simp [isSignificant, hk, Kind.isScriptSpace]
  have hmem : list ∈ after'.filter (isSignificant d) := by
    obtain ⟨name, rest, ht, -⟩ := h'.tokens
    rw [ht]
    simp
  obtain ⟨name, rest, ht, hname⟩ := h.tokens
  have hf := hn.filter (isSignificant d)
  rw [heq, filter_append, filter_cons_of_pos hs] at ht hf
  have hne : list ≠ keyword := by
    rintro rfl
    rw [h.list_kind] at hk
    cases hk
  -- the list is behind the second keyword, which would have to be the name of the first
  have hfront : list ∉ before.filter (isSignificant d) := fun hb =>
    (nodup_append.mp hf).2.2 _ hb _ (mem_cons_of_mem _ hmem) rfl
  generalize before.filter (isSignificant d) = front at ht hfront
  rcases hname with rfl | ⟨n, rfl, hkn⟩
  · rcases front with - | ⟨a, front⟩
    · exact hne (List.cons.inj ht).1.symm
    · exact hfront ((List.cons.inj ht).1 ▸ mem_cons_self)
  · rcases front with - | ⟨a, - | ⟨b, front⟩⟩
    · rw [← (List.cons.inj ht).1, hk] at hkn
      cases hkn
    · exact hne (List.cons.inj (List.cons.inj ht).2).1.symm
    · refine hfront ((List.cons.inj (List.cons.inj ht).2).1 ▸ ?_)
      exact mem_cons_of_mem _ mem_cons_self

theorem found_kind {x : NodeId} (hx : x ∈ found) : d.kind x = .identifier :=
  (parameterNodes_eq_ok h.found_eq).2.1 x hx

end

end FunctionHead

/-- The second half of reading a function: its parameters, which stand in `list`, and its body. -/
def parametersFrom (d : Document) (keyword list : NodeId) (rest : List NodeId) :
    Except ScopeError (List Declaration) := do
  if d.kind list != .parentheses then throw ⟨d.place list, .noParameters⟩
  let found ← parameterNodes d false (d.childNodes list)
  let (body, _) ← nextToken d keyword rest
  if d.kind body != .scope then throw ⟨d.place body, .noFunctionBody⟩
  return found.map fun node => { scope := body, name := d.ownText node, node }

theorem parameters_eq (d : Document) (keyword : NodeId) (after : List NodeId) :
    parameters d keyword after = (do
      let (first, rest) ← nextToken d keyword (after.filter (isSignificant d))
      if d.kind first == .identifier then do
        let (list, rest) ← nextToken d keyword rest
        parametersFrom d keyword list rest
      else parametersFrom d keyword first rest) := rfl

theorem parametersFrom_eq_ok {ps : List Declaration} : parametersFrom d keyword list rest = .ok ps ↔
      ∃ body more found, rest = body :: more ∧ d.kind list = .parentheses ∧ d.kind body = .scope ∧
        parameterNodes d false (d.childNodes list) = .ok found ∧
        ps = found.map fun node => { scope := body, name := d.ownText node, node } := by
  unfold parametersFrom
  by_cases hl : d.kind list = .parentheses
  · have hl' : (d.kind list != .parentheses) = false := by simp [hl]
    simp only [hl', Bool.false_eq_true, if_false]
    constructor
    · intro h
      obtain ⟨found, hf, h⟩ := except_bind.mp h
      obtain ⟨⟨body, more⟩, hb, h⟩ := except_bind.mp h
      simp only at h
      by_cases hk : d.kind body = .scope
      · have hk' : (d.kind body != .scope) = false := by simp [hk]
        simp only [hk', Bool.false_eq_true, if_false] at h
        exact ⟨body, more, found, nextToken_eq_ok.mp hb, hl, hk, hf, (except_pure_eq_ok.mp h).symm⟩
      · have hk' : (d.kind body != .scope) = true := by simp [hk]
        simp only [hk', if_true] at h
        cases h
    · rintro ⟨body, more, found, rfl, -, hk, hf, rfl⟩
      refine except_bind.mpr ⟨found, hf, ?_⟩
      have hk' : (d.kind body != .scope) = false := by simp [hk]
      simp only [nextToken, bind, Except.bind, hk', Bool.false_eq_true, if_false]
      rfl
  · have hl' : (d.kind list != .parentheses) = true := by simp [hl]
    simp only [hl', if_true]
    constructor
    · intro h; cases h
    · rintro ⟨_, _, _, _, hl'', _⟩; exact absurd hl'' hl

theorem parameters_eq_ok {ps : List Declaration} :
    parameters d keyword after = .ok ps ↔ ∃ list body found, FunctionHead d after list body found ∧
      ps = found.map fun node => { scope := body, name := d.ownText node, node } := by
  rw [parameters_eq]
  constructor
  · intro h
    obtain ⟨⟨first, rest⟩, h1, h⟩ := except_bind.mp h
    rw [nextToken_eq_ok] at h1
    simp only at h
    by_cases hk : d.kind first = .identifier
    · simp only [hk, beq_self_eq_true, if_true] at h
      obtain ⟨⟨list, rest'⟩, h2, h⟩ := except_bind.mp h
      obtain ⟨body, more, found, rfl, hl, hb, hf, rfl⟩ := parametersFrom_eq_ok.mp h
      rw [nextToken_eq_ok] at h2
      subst h2
      exact ⟨list, body, found, ⟨⟨[first], more, h1, .inr ⟨first, rfl, hk⟩⟩, hl, hb, hf⟩, rfl⟩
    · rw [beq_eq_false_iff_ne.mpr hk] at h
      simp only [Bool.false_eq_true, if_false] at h
      obtain ⟨body, more, found, rfl, hl, hb, hf, rfl⟩ := parametersFrom_eq_ok.mp h
      exact ⟨first, body, found, ⟨⟨[], more, h1, .inl rfl⟩, hl, hb, hf⟩, rfl⟩
  · rintro ⟨list, body, found, ⟨⟨name, rest, ht, hname⟩, hl, hb, hf⟩, rfl⟩
    have hfrom : parametersFrom d keyword list (body :: rest) = .ok _ :=
      parametersFrom_eq_ok.mpr ⟨body, rest, found, rfl, hl, hb, hf, rfl⟩
    rcases hname with rfl | ⟨n, rfl, hn⟩
    · refine except_bind.mpr ⟨(list, body :: rest), nextToken_eq_ok.mpr ht, ?_⟩
      simp only [hl]
      exact hfrom
    · refine except_bind.mpr ⟨(n, list :: body :: rest), nextToken_eq_ok.mpr ht, ?_⟩
      simp only [hn, beq_self_eq_true, if_true]
      exact hfrom

/-! ### One token after the other -/

def Progress.past (p : Progress) (d : Document) (isPrivate : Bool) (id : NodeId) : Progress :=
  if !isSignificant d id then p.skip d id
  else if d.kind id = .keyword then (p.meet d id).keyword isPrivate (d.ownText id)
  else if d.kind id = .operator then (p.meet d id).operator (operatorText d id)
  else { p.meet d id with armed := false }

/-- The declarations that one token of a list brings, with `more` the tokens behind it. -/
def foundAt (d : Document) (scope : NodeId)
    (enter : (scope id : NodeId) → Except ScopeError (List Declaration)) (p : Progress) (id : NodeId)
    (more : List NodeId) : Except ScopeError (List Declaration) :=
  if !isSignificant d id then .ok []
  else if d.kind id = .keyword then
    if d.ownText id == "function" then parameters d id more else .ok []
  else if d.kind id = .identifier then
    .ok (if (p.meet d id).armed then [{ scope, name := d.ownText id, node := id }] else [])
  else if d.kind id = .operator then .ok []
  else enter (if d.kind id == .scope then id else scope) id

theorem declarationsIn_cons (id : NodeId) (more : List NodeId) :
    declarationsIn d isPrivate scope enter p (id :: more) = (do
      let own ← foundAt d scope enter p id more
      let rest ← declarationsIn d isPrivate scope enter (p.past d isPrivate id) more
      return own ++ rest) := by
  have hnil : ∀ x : Except ScopeError (List Declaration), (do
      let own ← Except.ok []
      let rest ← x
      return own ++ rest) = x := fun x => by
    cases x <;> rfl
  rw [declarationsIn, foundAt, Progress.past]
  by_cases hs : (!isSignificant d id) = true
  · simp only [hs, if_true]
    exact (hnil _).symm
  · simp only [hs, Bool.false_eq_true, if_false]
    split
    case h_1 hk =>
      simp only [hk, if_true]
      by_cases hf : (d.ownText id == "function") = true
      · rw [if_pos hf, if_pos hf]
      · rw [if_neg hf, if_neg hf]; rfl
    case h_2 hk =>
      simp only [hk, reduceCtorEq, if_true, if_false]
      rfl
    case h_3 hk =>
      simp only [hk, reduceCtorEq, if_true, if_false]
      exact (hnil _).symm
    case h_4 hk hi ho => rw [if_neg hk, if_neg hi, if_neg ho, if_neg hk, if_neg ho]

theorem declIn_cons_eq_ok {r : List Declaration} :
    declarationsIn d isPrivate scope enter p (id :: more) = .ok r ↔
      ∃ own rest, foundAt d scope enter p id more = .ok own ∧
        declarationsIn d isPrivate scope enter (p.past d isPrivate id) more = .ok rest ∧
        r = own ++ rest := by
  rw [declarationsIn_cons, except_bind]
  constructor
  · rintro ⟨own, ho, h⟩
    obtain ⟨rest, hr, h⟩ := except_bind.mp h
    exact ⟨own, rest, ho, hr, (except_pure_eq_ok.mp h).symm⟩
  · rintro ⟨own, rest, ho, hr, rfl⟩
    exact ⟨own, ho, except_bind.mpr ⟨rest, hr, rfl⟩⟩

/-! ### Origins -/

/-- A declaring statement is under way in private scopes only. -/
def Progress.Guarded (isPrivate : Bool) (p : Progress) : Prop :=
  p.armed = true ∨ p.statement = true → isPrivate = true

theorem Progress.guarded_start (isPrivate : Bool) : Progress.Guarded isPrivate {} := by
  simp [Guarded]

theorem Progress.Guarded.meet (h : p.Guarded isPrivate) (d : Document) (id : NodeId) :
    (p.meet d id).Guarded isPrivate := by
  simp only [Guarded, Progress.meet, Bool.and_eq_true]
  rintro (⟨ha, -⟩ | ⟨hs, -⟩)
  · exact h (.inl ha)
  · exact h (.inr hs)

theorem Progress.Guarded.past (h : p.Guarded isPrivate) (d : Document) (id : NodeId) :
    (p.past d isPrivate id).Guarded isPrivate := by
  have hm := h.meet d id
  unfold Progress.past
  split_ifs with hs hk ho
  · exact h
  · simp only [Guarded, Progress.keyword, Bool.or_eq_true, Bool.and_eq_true]
    rintro ((⟨hp, -⟩ | ⟨hp, -⟩) | ⟨hp, -⟩) <;> exact hp
  · unfold Progress.operator
    split_ifs with hc
    · simp only [Bool.and_eq_true] at hc
      exact fun _ => hm (.inr hc.2)
    · simp only [Guarded, Bool.false_eq_true, false_or, Bool.and_eq_true]
      exact fun hstatement => hm (.inr hstatement.1)
  · simp only [Guarded, Bool.false_eq_true, false_or]
    exact fun hstatement => hm (.inr hstatement)

/-- How a declaration comes to be among those of a list. -/
inductive Origin (d : Document) (isPrivate : Bool) (scope : NodeId)
    (enter : (scope id : NodeId) → Except ScopeError (List Declaration)) (l : List NodeId) :
    Declaration → Prop where
  /-- An identifier of the list is armed. -/
  | armed {id : NodeId} : id ∈ l → d.kind id = .identifier → isPrivate = true →
      Origin d isPrivate scope enter l { scope, name := d.ownText id, node := id }
  /-- It is a parameter of a function whose keyword is in the list. -/
  | parameter {before after found : List NodeId} {keyword list body node : NodeId} :
      l = before ++ keyword :: after → d.kind keyword = .keyword →
      FunctionHead d after list body found → node ∈ found →
      Origin d isPrivate scope enter l { scope := body, name := d.ownText node, node }
  /-- It is found below a token of the list. -/
  | inside {id : NodeId} {r : List Declaration} {e : Declaration} : id ∈ l →
      d.kind id ≠ .identifier → enter (if d.kind id == .scope then id else scope) id = .ok r →
      e ∈ r → Origin d isPrivate scope enter l e

theorem Origin.cons {e : Declaration}
    (h : Origin d isPrivate scope enter l e) : Origin d isPrivate scope enter (id :: l) e := by
  cases h with
  | armed hmem hk hp => exact .armed (mem_cons_of_mem _ hmem) hk hp
  | parameter hl hk hh hn => exact .parameter (by rw [hl, cons_append]) hk hh hn
  | inside hmem hk hr he => exact .inside (mem_cons_of_mem _ hmem) hk hr he

theorem foundAt_cases {own : List Declaration}
    (h : foundAt d scope enter p id more = .ok own) : own = [] ∨
      (d.kind id = .keyword ∧ ∃ list body found, FunctionHead d more list body found ∧
        own = found.map fun node => { scope := body, name := d.ownText node, node }) ∨
      (d.kind id = .identifier ∧ (p.meet d id).armed = true ∧
        own = [{ scope, name := d.ownText id, node := id }]) ∨
      (d.kind id ≠ .identifier ∧ enter (if d.kind id == .scope then id else scope) id = .ok own)
      := by
  unfold foundAt at h
  by_cases hs : (!isSignificant d id) = true
  · rw [if_pos hs] at h
    cases h
    exact .inl rfl
  rw [if_neg hs] at h
  by_cases hk : d.kind id = .keyword
  · rw [if_pos hk] at h
    by_cases hf : (d.ownText id == "function") = true
    · rw [if_pos hf] at h
      exact .inr (.inl ⟨hk, parameters_eq_ok.mp h⟩)
    · rw [if_neg hf] at h
      cases h
      exact .inl rfl
  rw [if_neg hk] at h
  by_cases hi : d.kind id = .identifier
  · rw [if_pos hi] at h
    by_cases ha : (p.meet d id).armed = true
    · rw [if_pos ha] at h
      cases h
      exact .inr (.inr (.inl ⟨hi, ha, rfl⟩))
    · rw [if_neg ha] at h
      cases h
      exact .inl rfl
  rw [if_neg hi] at h
  by_cases ho : d.kind id = .operator
  · rw [if_pos ho] at h
    cases h
    exact .inl rfl
  · rw [if_neg ho] at h
    exact .inr (.inr (.inr ⟨hi, h⟩))

theorem mem_foundAt (hp : p.Guarded isPrivate)
    {own : List Declaration} (h : foundAt d scope enter p id more = .ok own) {e : Declaration}
    (he : e ∈ own) : Origin d isPrivate scope enter (id :: more) e := by
  rcases foundAt_cases h with rfl | ⟨hk, list, body, found, hh, rfl⟩ | ⟨hi, ha, rfl⟩ | ⟨hi, h⟩
  · cases he
  · obtain ⟨node, hn, rfl⟩ := mem_map.mp he
    exact .parameter (nil_append _).symm hk hh hn
  · rw [mem_singleton.mp he]
    exact .armed mem_cons_self hi (hp.meet d id (.inl ha))
  · exact .inside mem_cons_self hi h he

theorem mem_declarationsIn (hp : p.Guarded isPrivate) {r : List Declaration}
    (h : declarationsIn d isPrivate scope enter p l = .ok r) {e : Declaration} (he : e ∈ r) :
    Origin d isPrivate scope enter l e := by
  induction l generalizing p r with
  | nil =>
    rw [declarationsIn] at h
    cases h
    cases he
  | cons id more ih =>
    obtain ⟨own, rest, ho, hr, rfl⟩ := declIn_cons_eq_ok.mp h
    rcases mem_append.mp he with he | he
    · exact mem_foundAt hp ho he
    · exact (ih (hp.past d id) hr he).cons

/-! ### Below a node -/

theorem below_succ_eq_ok {r : List Declaration} :
    declarationsBelow d global (levels + 1) scope id = .ok r ↔
      ∃ rs, List.Forall₂ (fun b r => declarationsIn d (scope != global) scope
        (declarationsBelow d global levels) {} b.nodes = .ok r) (d.branches id) rs ∧
        r = rs.flatten := by
  rw [declarationsBelow, except_bind]
  constructor
  · rintro ⟨rs, hrs, h⟩
    exact ⟨rs, except_mapM_eq_ok.mp hrs, (except_pure_eq_ok.mp h).symm⟩
  · rintro ⟨rs, hrs, rfl⟩
    exact ⟨rs, except_mapM_eq_ok.mpr hrs, rfl⟩

/-- The nodes in the branches of a node, none for an identifier, which is not looked into. -/
def entered (d : Document) (id : NodeId) : List NodeId :=
  if d.kind id = .identifier then [] else d.kids id

theorem entered_of_ne (h : d.kind id ≠ .identifier) : entered d id = d.kids id :=
  if_neg h

theorem entered_subset_kids (d : Document) (id : NodeId) : entered d id ⊆ d.kids id := by
  intro c hc
  rw [entered] at hc
  split_ifs at hc with h
  · cases hc
  · exact hc

/-- Where a declaration is that is found below `id`, whose lists belong to `scope`. -/
structure Located (d : Document) (global scope id : NodeId) (e : Declaration) : Prop where
  name_eq : e.name = d.ownText e.node
  kind_eq : d.kind e.node = .identifier
  node_below : ∃ c ∈ d.kids id, Reaches (entered d) c e.node
  scope_below : (e.scope = scope ∧ scope ≠ global) ∨
    (d.kind e.scope = .scope ∧ ∃ c ∈ d.kids id, Reaches d.kids c e.scope)

theorem childNodes_eq_of_branches {bs : List Branch}
    (h : d.branches id = b :: bs) : d.childNodes id = b.nodes := by
  rw [branches] at h
  rw [childNodes, children, Node.children, h]
  rfl

theorem childNodes_sublist (d : Document) (id : NodeId) : (d.childNodes id).Sublist (d.kids id) := by
  cases hb : d.branches id with
  | nil =>
    rw [branches] at hb
    rw [childNodes, children, Node.children, hb]
    exact nil_sublist _
  | cons b bs =>
    rw [childNodes_eq_of_branches hb, kids, hb, flatMap_cons]
    exact sublist_append_left _ _

theorem Origin.head {e : Declaration}
    (hin : ∀ {scope id r e}, enter scope id = .ok r → e ∈ r →
      ∃ c ∈ d.kids id, Reaches (entered d) c e.node)
    (h : Origin d isPrivate scope enter l e) : ∃ c ∈ l, Reaches (entered d) c e.node := by
  cases h with
  | @armed id hmem _ _ => exact ⟨id, hmem, .refl⟩
  | @parameter before after found keyword list body node hl _ hh hn =>
    refine ⟨list, ?_, .child ?_⟩
    · rw [hl]
      exact mem_append_right _ (mem_cons_of_mem _ hh.list_mem)
    · rw [entered_of_ne (by rw [hh.list_kind]; decide)]
      exact (childNodes_sublist d list).subset (hh.found_sublist.subset hn)
  | @inside id r e hmem hk hr he =>
    obtain ⟨c, hc, hreached⟩ := hin hr he
    exact ⟨id, hmem, .head (by rw [entered_of_ne hk]; exact hc) hreached⟩

theorem located_of_mem {r : List Declaration}
    (h : declarationsBelow d global levels scope id = .ok r) {e : Declaration} (he : e ∈ r) :
    Located d global scope id e := by
  induction levels generalizing scope id r e with
  | zero => cases h; cases he
  | succ levels ih =>
    obtain ⟨rs, hrs, rfl⟩ := below_succ_eq_ok.mp h
    obtain ⟨rb, hrb, he⟩ := mem_flatten.mp he
    obtain ⟨b, hb, hrb⟩ := exists_of_mem_forall₂ hrs hrb
    have hkid : ∀ {c}, c ∈ b.nodes → c ∈ d.kids id := fun hc => mem_kids.mpr ⟨b, hb, hc⟩
    have ho := mem_declarationsIn (Progress.guarded_start _) hrb he
    obtain ⟨c, hc, hreached⟩ := ho.head fun hr he => (ih hr he).node_below
    have hbelow : ∃ c ∈ d.kids id, Reaches (entered d) c e.node := ⟨c, hkid hc, hreached⟩
    cases ho with
    | armed _ hk hp => exact ⟨rfl, hk, hbelow, .inl ⟨rfl, by simpa using hp⟩⟩
    | @parameter before after found keyword list body node hl _ hh hn =>
      refine ⟨rfl, hh.found_kind hn, hbelow, .inr ⟨hh.body_kind, body, hkid ?_, .refl⟩⟩
      rw [hl]
      exact mem_append_right _ (mem_cons_of_mem _ hh.body_mem)
    | @inside inner r e hmem _ hr he =>
      have hl := ih hr he
      refine ⟨hl.name_eq, hl.kind_eq, hbelow, ?_⟩
      rcases hl.scope_below with ⟨hs, hg⟩ | ⟨hk, c, hc, hreached⟩
      · by_cases hks : d.kind inner = .scope
        · rw [hks, beq_self_eq_true, if_pos rfl] at hs
          exact .inr ⟨hs ▸ hks, inner, hkid hmem, hs ▸ .refl⟩
        · rw [beq_eq_false_iff_ne.mpr hks, if_neg Bool.false_ne_true] at hs hg
          exact .inl ⟨hs, hg⟩
      · exact .inr ⟨hk, inner, hkid hmem, .head hc hreached⟩

theorem Located.reaches {e : Declaration} (h : Located d global scope id e) :
    ∃ c ∈ d.kids id, Reaches d.kids c e.node := by
  obtain ⟨c, hc, hr⟩ := h.node_below
  exact ⟨c, hc, hr.mono (entered_subset_kids d)⟩

theorem Origin.reaches {e : Declaration}
    (h : Origin d isPrivate scope (declarationsBelow d global levels) l e) :
    ∃ c ∈ l, Reaches d.kids c e.node := by
  obtain ⟨c, hc, hr⟩ := h.head fun hr he => (located_of_mem hr he).node_below
  exact ⟨c, hc, hr.mono (entered_subset_kids d)⟩

/-! ### No identifier is declared twice -/

theorem declarationsIn_eq_nil (hl : ∀ x ∈ l, isSignificant d x = false ∨
      d.kind x = .identifier ∨ isOperator d x "," = true)
    (ha : p.armed = false) (hstatement : p.statement = false) :
    declarationsIn d isPrivate scope enter p l = .ok [] := by
  induction l generalizing p with
  | nil => rfl
  | cons id more ih =>
    obtain ⟨hid, hmore⟩ := forall_mem_cons.mp hl
    have hm : (p.meet d id).armed = false ∧ (p.meet d id).statement = false := by
      simp [Progress.meet, ha, hstatement]
    suffices h : foundAt d scope enter p id more = .ok [] ∧
        (p.past d isPrivate id).armed = false ∧ (p.past d isPrivate id).statement = false from
      declIn_cons_eq_ok.mpr ⟨[], [], h.1, ih hmore h.2.1 h.2.2, rfl⟩
    rcases hid with hs | hk | ho
    · simp [foundAt, Progress.past, hs, Progress.skip, ha, hstatement]
    · simp [foundAt, Progress.past, isSignificant, hk, Kind.isScriptSpace, hm]
    · have hk : d.kind id = .operator := by
        simp only [isOperator, Bool.and_eq_true, beq_iff_eq] at ho
        exact ho.1
      simp [foundAt, Progress.past, isSignificant, hk, Kind.isScriptSpace, Progress.operator, hm]

section Nodup

variable {top : NodeId} (hu : d.UniqueOwner top)
include hu

theorem not_mem_childNodes_of_below {r : List Declaration} (ht : Reaches d.refs top list)
    (hf : parameterNodes d false (d.childNodes list) = .ok found)
    (hr : declarationsBelow d global levels scope list = .ok r) {e : Declaration} (he : e ∈ r) :
    e.node ∉ d.childNodes list := by
  cases levels with
  | zero => cases hr; cases he
  | succ levels =>
    obtain ⟨rs, hrs, rfl⟩ := below_succ_eq_ok.mp hr
    obtain ⟨rb, hrb, her⟩ := mem_flatten.mp he
    intro hmem
    cases hb : d.branches list with
    | nil =>
      rw [hb, forall₂_nil_left_iff] at hrs
      rw [hrs] at hrb
      cases hrb
    | cons b bs =>
      have hn := hu.kids_nodup ht
      rw [childNodes_eq_of_branches hb] at hf hmem
      rw [kids, hb, flatMap_cons, nodup_append] at hn
      rw [hb] at hrs
      cases hrs with
      | @cons _ r0 _ rs h0 hrs =>
        -- the branch with the parameters declares nothing
        rw [declarationsIn_eq_nil (parameterNodes_eq_ok hf).2.2 rfl rfl] at h0
        cases h0
        rcases mem_cons.mp hrb with rfl | hrb
        · cases her
        -- the other branches have other children
        obtain ⟨b', hb', hrb⟩ := exists_of_mem_forall₂ hrs hrb
        obtain ⟨c, hc, hreached⟩ :=
          (mem_declarationsIn (Progress.guarded_start _) hrb her).reaches
        have hkid : ∀ {b' c}, b' ∈ b :: bs → c ∈ b'.nodes → c ∈ d.kids list :=
          fun hb' hc => mem_kids.mpr ⟨_, hb ▸ hb', hc⟩
        refine hu.kids_apart ht (hkid (mem_cons_of_mem _ hb') hc)
          (hkid mem_cons_self hmem) ?_ hreached .refl
        rintro rfl
        exact hn.2.2 _ hmem _ (mem_flatMap.mpr ⟨b', hb', hc⟩) rfl

theorem parameter_ne_of_origin {node : NodeId} {e : Declaration}
    (ht : Reaches d.refs top id) (hb : b ∈ d.branches id) (hnodup : b.nodes.Nodup)
    (hbef : b.nodes = before ++ keyword :: after)
    (hh : FunctionHead d after list body found) (hn : node ∈ found)
    (ho : Origin d isPrivate scope (declarationsBelow d global levels) after e) : node ≠ e.node := by
  have hkid : ∀ {c}, c ∈ after → c ∈ d.kids id := fun hc => mem_kids.mpr
    ⟨b, hb, by rw [hbef]; exact mem_append_right _ (mem_cons_of_mem _ hc)⟩
  have hnode : node ∈ d.childNodes list := hh.found_sublist.subset hn
  have hreached : Reaches d.kids list node := .child ((childNodes_sublist d list).subset hnode)
  have htl : Reaches d.refs top list := ht.tail (d.kids_sub id (hkid hh.list_mem))
  rintro rfl
  -- whatever declares the parameter a second time is the parameter list or below it
  have hhead : ∀ {c}, c ∈ after → Reaches d.kids c e.node → c = list := by
    intro c hc hr
    by_contra hne
    exact hu.kids_apart ht (hkid hc) (hkid hh.list_mem) hne hr hreached
  cases ho with
  | @armed c hc hk _ =>
    obtain rfl := hhead hc .refl
    rw [hh.list_kind] at hk
    cases hk
  | @parameter before' after' found' keyword' list' body' node' hl hk' hh' hn' =>
    have hmem : ∀ {c}, c ∈ after' → c ∈ after := fun hc => by
      rw [hl]; exact mem_append_right _ (mem_cons_of_mem _ hc)
    obtain rfl := hhead (hmem hh'.list_mem)
      (.child ((childNodes_sublist d list').subset (hh'.found_sublist.subset hn')))
    refine hh.not_shared hh' hl hk' ?_
    rw [hbef] at hnodup
    exact (nodup_cons.mp hnodup.of_append_right).2
  | @inside c r e hc _ hr he =>
    obtain ⟨c', hc', hr'⟩ := (located_of_mem hr he).reaches
    obtain rfl := hhead hc (.head hc' hr')
    exact not_mem_childNodes_of_below hu htl hh.found_eq hr he hnode

variable (isPrivate) in
theorem foundAt_nodup {c : NodeId} (ht : Reaches d.refs top id) (hb : b ∈ d.branches id)
    (henter : ∀ {scope c r}, c ∈ d.kids id → declarationsBelow d global levels scope c = .ok r →
      (r.map (·.node)).Nodup) (hl : b.nodes = before ++ c :: more) {own : List Declaration}
    (ho : foundAt d scope (declarationsBelow d global levels) p c more = .ok own) :
    (own.map (·.node)).Nodup ∧ ∀ e ∈ own, ∀ e',
      Origin d isPrivate scope (declarationsBelow d global levels) more e' → e.node ≠ e'.node := by
  have hnodup : b.nodes.Nodup := (nodup_flatMap.mp (hu.kids_nodup ht)).1 b hb
  have hkid : ∀ {x}, x ∈ c :: more → x ∈ d.kids id := fun hx => mem_kids.mpr
    ⟨b, hb, by rw [hl]; exact mem_append_right _ hx⟩
  have hc : c ∉ more := (nodup_cons.mp (hl ▸ hnodup).of_append_right).1
  -- what is at or below the token is not at or below one behind it
  have hapart : ∀ {x e'}, Reaches d.kids c x →
      Origin d isPrivate scope (declarationsBelow d global levels) more e' → x ≠ e'.node := by
    rintro x e' hx ho' rfl
    obtain ⟨c', hc', hr'⟩ := ho'.reaches
    refine hu.kids_apart ht (hkid mem_cons_self) (hkid (mem_cons_of_mem _ hc')) ?_ hx hr'
    rintro rfl
    exact hc hc'
  rcases foundAt_cases ho with rfl | ⟨hk, list, body, found, hh, rfl⟩ | ⟨-, -, rfl⟩ | ⟨-, h⟩
  · simp
  · refine ⟨?_, fun e he e' ho' => ?_⟩
    · have htl := ht.tail (d.kids_sub id (hkid (mem_cons_of_mem _ hh.list_mem)))
      rw [map_map]
      refine (map_id found).symm ▸ ?_
      exact (hu.kids_nodup htl).sublist
        (hh.found_sublist.trans (childNodes_sublist d list))
    · obtain ⟨node, hn, rfl⟩ := mem_map.mp he
      exact parameter_ne_of_origin hu ht hb hnodup hl hh hn ho'
  · refine ⟨nodup_singleton c, fun e he e' ho' => ?_⟩
    rw [mem_singleton.mp he]
    exact hapart .refl ho'
  · refine ⟨henter (hkid mem_cons_self) h, fun e he e' ho' => ?_⟩
    obtain ⟨c', hc', hr'⟩ := (located_of_mem h he).reaches
    exact hapart (.head hc' hr') ho'

theorem declarationsIn_nodup (ht : Reaches d.refs top id) (hb : b ∈ d.branches id)
    (henter : ∀ {scope c r}, c ∈ d.kids id → declarationsBelow d global levels scope c = .ok r →
      (r.map (·.node)).Nodup) (hl : b.nodes = before ++ l) (hp : p.Guarded isPrivate)
    {r : List Declaration}
    (hr : declarationsIn d isPrivate scope (declarationsBelow d global levels) p l = .ok r) :
    (r.map (·.node)).Nodup := by
  induction l generalizing p before r with
  | nil => cases hr; exact nodup_nil
  | cons c more ih =>
    obtain ⟨own, rest, ho, hrest, rfl⟩ := declIn_cons_eq_ok.mp hr
    obtain ⟨hown, hne⟩ := foundAt_nodup isPrivate hu ht hb henter hl ho
    rw [map_append, nodup_append]
    refine ⟨hown, ih (by rw [hl, append_cons]) (hp.past d c) hrest, ?_⟩
    rintro _ hx _ hy
    obtain ⟨e, he, rfl⟩ := mem_map.mp hx
    obtain ⟨e', he', rfl⟩ := mem_map.mp hy
    exact hne e he e' (mem_declarationsIn (hp.past d c) hrest he')

theorem declarationsBelow_nodup (ht : Reaches d.refs top id) {r : List Declaration}
    (hr : declarationsBelow d global levels scope id = .ok r) : (r.map (·.node)).Nodup := by
  induction levels generalizing scope id r with
  | zero => cases hr; exact nodup_nil
  | succ levels ih =>
    obtain ⟨rs, hrs, rfl⟩ := below_succ_eq_ok.mp hr
    -- branch by branch: two branches have different children
    have key : ∀ {bs : List Branch} {rs}, List.Forall₂ (fun b r => declarationsIn d
        (scope != global) scope (declarationsBelow d global levels) {} b.nodes = .ok r) bs rs →
        bs.Sublist (d.branches id) → (rs.flatten.map (·.node)).Nodup := by
      intro bs rs h hbs
      induction h with
      | nil => exact nodup_nil
      | @cons b r bs rs hr hrs ihs =>
        have hb : b ∈ d.branches id := hbs.subset mem_cons_self
        rw [flatten_cons, map_append]
        refine hu.nodup_append ht (hbs.flatMap Branch.nodes) ?_ ?_
          (declarationsIn_nodup hu ht hb (fun hc => ih (ht.tail (d.kids_sub id hc)))
            (nil_append _).symm (Progress.guarded_start _) hr)
          (ihs ((sublist_cons_self b bs).trans hbs))
        · rintro _ hx
          obtain ⟨e, he, rfl⟩ := mem_map.mp hx
          exact (mem_declarationsIn (Progress.guarded_start _) hr he).reaches
        · rintro _ hx
          obtain ⟨e, he, rfl⟩ := mem_map.mp hx
          obtain ⟨r', hr', he⟩ := mem_flatten.mp he
          obtain ⟨b', hb', hr'⟩ := exists_of_mem_forall₂ hrs hr'
          obtain ⟨c, hc, hreached⟩ :=
            (mem_declarationsIn (Progress.guarded_start _) hr' he).reaches
          exact ⟨c, mem_flatMap.mpr ⟨b', hb', hc⟩, hreached⟩
    exact key hrs (List.Sublist.refl _)

end Nodup

theorem declarations_nodup {script : NodeId} (hu : d.UniqueOwner script) {ds : List Declaration}
    (h : declarations d script = .ok ds) : (ds.map (·.node)).Nodup :=
  declarationsBelow_nodup hu .refl h

end Stencil.Script
