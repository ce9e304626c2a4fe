import Stencil.Proofs.Lexing.Arrival
import Stencil.Proofs.Lexing.Hindsight

/-!
# Which tokens stand where

In some grammars the kinds of the open tokens follow from the states. Then it can be worked out from the
rules alone which tokens are made, which of them may stand inside of which, and that no text is left
outside of all tokens (`Layout`, `Grammar.Arranged`).
-/

namespace Stencil

open Document List

variable {d : Document} {σ : Type}

structure Layout where
  made : List Kind
  /-- The kinds of tokens that are not inside of others. -/
  outside : List Kind
  /-- The kinds of tokens inside of a token of a kind. -/
  inside : Kind → List Kind

namespace Layout

variable {l : Layout} {k : Kind} {b : Branch} {x : NodeId}

/-- The kinds of the open tokens after an action, the innermost first, if the action keeps to the
layout. -/
def after? (l : Layout) : List Kind → LexAction σ → Option (List Kind)
  | kinds, .start kind => if kind ∈ l.made then some (kind :: kinds) else none
  | [], .stop => none
  | [kind], .stop => if kind ∈ l.outside then some [] else none
  | kind :: outer :: kinds, .stop => if kind ∈ l.inside outer then some (outer :: kinds) else none
  | [], .record => none
  | [], .replace _ => none
  | kinds, _ => some kinds

structure Fills (l : Layout) (d : Document) (k : Kind) (b : Branch) : Prop where
  nodes : ∀ c ∈ b.nodes, d.kind c ∈ l.inside k
  /-- Where no token can be, there is a single piece of text at most. -/
  alone : l.inside k = [] → b = [] ∨ ∃ s, s ≠ "" ∧ b = [.text s]

structure Formed (l : Layout) (d : Document) (x : NodeId) : Prop where
  payload_eq : (d.node x).payload = .none
  kind_mem : d.kind x ∈ l.made
  branches_eq : ∃ b, d.branches x = [b] ∧ l.Fills d (d.kind x) b

theorem Fills.nil : l.Fills d k [] := ⟨fun c hc => (by cases hc), fun _ => .inl rfl⟩

theorem Fills.reverse (h : l.Fills d k b) : l.Fills d k b.reverse where
  nodes c hc := h.nodes c (by simpa using hc)
  alone hk := (h.alone hk).imp (fun hb => by rw [hb]; rfl) fun ⟨s, hs, hb⟩ => ⟨s, hs, by rw [hb]; rfl⟩

theorem Fills.stack_text (h : l.Fills d k b) (s : String) : l.Fills d k (b.stack (.text s)) where
  nodes c hc := h.nodes c (by rwa [Branch.nodes_stack_text] at hc)
  alone hk := by
    have hne : ∀ t : String, t ≠ "" → t ++ s ≠ "" := fun t ht heq =>
      ht (String.append_eq_empty_iff.mp heq).1
    simp only [Branch.stack]
    split_ifs with hs
    · exact h.alone hk
    · rcases h.alone hk with rfl | ⟨t, ht, rfl⟩
      · exact .inr ⟨s, hs, rfl⟩
      · exact .inr ⟨t ++ s, hne t ht, rfl⟩

theorem Fills.stack_node (h : l.Fills d k b) {id : NodeId} (hid : d.kind id ∈ l.inside k) :
    l.Fills d k (b.stack (.node id)) where
  nodes c hc := by
    rw [Branch.nodes_stack_node] at hc
    rcases mem_cons.mp hc with rfl | hc
    · exact hid
    · exact h.nodes c hc
  alone hk := by
    rw [hk] at hid
    cases hid

/-- What a run has built keeps to the layout, and so do the tokens that it has closed. -/
structure LaidOut (l : Layout) (d : Document) (kinds : List Kind) (p : Pile) (size : NodeId) : Prop where
  kinds_eq : p.opened.map (fun t => d.kind t.1) = kinds
  formed : ∀ x, 1 ≤ x → x < size → x ∈ p.opened.map (·.1) ∨ l.Formed d x
  fills : ∀ t ∈ p.opened, d.kind t.1 ∈ l.made ∧ l.Fills d (d.kind t.1) t.2
  outside : ∀ c ∈ p.out.nodes, d.kind c ∈ l.outside
  wordless : p.out.Wordless

variable {kinds kinds' : List Kind} {p : Bool} {m t : List Char} {as : List (LexAction σ)} {c c' : Point σ}

theorem LaidOut.add_text {q : Pile} {size : NodeId} (h : l.LaidOut d (k :: kinds) q size) (s : String) :
    l.LaidOut d (k :: kinds) (q.add (.text s)) size := by
  obtain ⟨_ | ⟨⟨x, b⟩, opened⟩, out⟩ := q
  · cases h.kinds_eq
  · obtain ⟨hx, hfills⟩ := forall_mem_cons.mp h.fills
    exact ⟨h.kinds_eq, h.formed, forall_mem_cons.mpr ⟨⟨hx.1, hx.2.stack_text s⟩, hfills⟩, h.outside, h.wordless⟩

theorem LaidOut.does (hpayload : ∀ x, (d.node x).payload = .none) (hdoes : Point.Does d m t (· = c') as p c)
    (hkinds : as.foldlM l.after? kinds = some kinds') (h : l.LaidOut d kinds c.pile c.size) :
    l.LaidOut d kinds' c'.pile c'.size := by
  induction as generalizing c p kinds with
  | nil =>
    cases hkinds
    cases hdoes
    exact h
  | cons a as ih =>
    obtain ⟨kinds1, hafter, hkinds⟩ := Option.bind_eq_some_iff.mp hkinds
    cases a with
    | push => cases kinds <;> cases hafter <;> exact ih hdoes hkinds h
    | pop => cases kinds <;> cases hafter <;> exact ih hdoes hkinds h
    | record => cases kinds <;> cases hafter; exact ih hdoes hkinds (h.add_text _)
    | replace => cases kinds <;> cases hafter; exact ih hdoes hkinds (h.add_text _)
    | shift => cases kinds <;> cases hafter <;> cases p <;> exact ih hdoes hkinds h
    | start kind =>
      obtain ⟨hmade, heq⟩ := Option.ite_none_right_eq_some.mp hafter
      cases heq
      obtain ⟨rfl, -, hdoes⟩ := hdoes
      refine ih hdoes hkinds ⟨congrArg (d.kind c.size :: ·) h.kinds_eq, fun x hle hlt => ?_,
        forall_mem_cons.mpr ⟨⟨hmade, .nil⟩, h.fills⟩, h.outside, h.wordless⟩
      rcases Nat.lt_succ_iff_lt_or_eq.mp hlt with hlt | rfl
      · exact (h.formed x hle hlt).imp_left (mem_cons_of_mem _)
      · exact .inl mem_cons_self
    | stop =>
      obtain ⟨states, place, ⟨_ | ⟨⟨x, b⟩, opened⟩, out⟩, ahead, size⟩ := c
      · exact hdoes.elim
      obtain ⟨hb, hdoes⟩ := hdoes
      obtain ⟨⟨hmade, hx⟩, hfills⟩ := forall_mem_cons.mp h.fills
      have hformed : ∀ y, 1 ≤ y → y < size → y ∈ opened.map (·.1) ∨ l.Formed d y := fun y hle hlt => by
        rcases h.formed y hle hlt with hy | hy
        · rcases mem_cons.mp hy with rfl | hy
          · exact .inr ⟨hpayload _, hmade, _, hb, hx.reverse⟩
          · exact .inl hy
        · exact .inr hy
      obtain rfl := h.kinds_eq
      cases opened with
      | nil =>
        obtain ⟨hmem, heq⟩ := Option.ite_none_right_eq_some.mp hafter
        cases heq
        refine ih hdoes hkinds ⟨rfl, hformed, hfills, forall_mem_cons.mpr ⟨hmem, h.outside⟩, fun s hs => ?_⟩
        exact h.wordless s ((mem_cons.mp hs).resolve_left nofun)
      | cons u opened =>
        obtain ⟨hmem, heq⟩ := Option.ite_none_right_eq_some.mp hafter
        cases heq
        obtain ⟨hu, hfills⟩ := forall_mem_cons.mp hfills
        exact ih hdoes hkinds ⟨rfl, hformed, forall_mem_cons.mpr ⟨⟨hu.1, hu.2.stack_node hmem⟩, hfills⟩,
          h.outside, h.wordless⟩
    | fail => exact hdoes.elim

end Layout

namespace Grammar

/-- In the stacks that are known, the open tokens follow from the states, and each rule keeps to the
layout. -/
structure Arranged (g : Grammar σ) (known : List (List σ)) (l : Layout) (tokens : List σ → List Kind) : Prop where
  start : tokens [] = []
  rule : ∀ states ∈ known, ∀ r ∈ g.rules (states.headD g.initial),
    r.actions.foldlM l.after? (tokens states) = (r.statesAfter? states).map tokens

variable {g : Grammar σ} {known : List (List σ)} {l : Layout} {tokens : List σ → List Kind}

theorem Arranged.of_completes (ha : g.Arranged known l tokens) (hpayload : ∀ x, (d.node x).payload = .none)
    {c : Point σ} (h : g.Completes known d c) (hlaid : l.LaidOut d (tokens c.states) c.pile c.size) :
    ∃ b, d.branches root = [b] ∧ b.Wordless ∧ (∀ c ∈ b.nodes, d.kind c ∈ l.outside) ∧
      ∀ x, 1 ≤ x → x < d.size → l.Formed d x := by
  induction h with
  | done _ _ hroot =>
    exact ⟨_, hroot, fun s hs => hlaid.wordless s (mem_reverse.mp hs), by simpa using hlaid.outside,
      fun x hle hlt => (hlaid.formed x hle hlt).resolve_left not_mem_nil⟩
  | rule hs _ hnext _ hdoes hafter _ _ ih =>
    have hkinds := ha.rule _ hs _ (next?_eq_some hnext).1
    rw [hafter] at hkinds
    exact ih (.does hpayload hdoes hkinds hlaid)

end Grammar

end Stencil
