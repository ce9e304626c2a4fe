import Stencil.Proofs.Lexing.Progress

/-!
# Runs in hindsight

A run that splits a source into tokens changes a document step by step, but it never changes a token that
is closed (`Run.Fixed`). So what the actions of a rule do can be told about the document in the end alone
(`Point.Does`), and so can what is left of a run (`Grammar.Completes`).

Whether a source is read to its end depends on the states and on the number of open tokens only
(`Grammar.Accepts`).
-/

namespace Stencil

open Document List

variable {σ : Type} {d d' e : Document} {r r' : Run σ} {m t : List Char} {p p' : Bool} {a : LexAction σ}
  {as : List (LexAction σ)}

/-- Where a run stands: what later rules depend on, what is built, and the number of the next token. -/
structure Point (σ : Type) where
  states : List σ
  place : Place
  pile : Pile
  ahead : List Char
  size : NodeId

namespace Point

variable {P Q : Point σ → Prop}

/-- Actions lead to a point of which `P` holds, where `m` has been matched in front of `t` and `e` is the
document in the end. -/
def Does (e : Document) (m t : List Char) (P : Point σ → Prop) :
    List (LexAction σ) → (pending : Bool) → Point σ → Prop
  | [], _, c => P c
  | .push state :: as, pending, c => Does e m t P as pending { c with states := state :: c.states }
  | .pop :: as, pending, c => Does e m t P as pending { c with states := c.states.tail }
  | .record :: as, pending, c =>
    Does e m t P as pending { c with pile := c.pile.add (.text (String.ofList m)) }
  | .replace text :: as, pending, c => Does e m t P as pending { c with pile := c.pile.add (.text text) }
  | .shift :: as, true, c => Does e m t P as false { c with place := c.place.advance m, ahead := t }
  | .shift :: as, false, c => Does e m t P as false c
  | .start k :: as, pending, c => e.kind c.size = k ∧ e.place c.size = c.place ∧ Does e m t P as pending
    { c with pile := { c.pile with opened := (c.size, []) :: c.pile.opened }, size := c.size + 1 }
  | .stop :: as, pending, c =>
    match c.pile.opened with
    | [] => False
    | (x, b) :: opened => e.branches x = [b.reverse] ∧
      Does e m t P as pending { c with pile := { c.pile with opened }.add (.node x) }
  | .fail _ :: _, _, _ => False

theorem Does.mono (hPQ : ∀ c, P c → Q c) {c : Point σ} (h : Does e m t P as p c) : Does e m t Q as p c := by
  induction as generalizing p c with
  | nil => exact hPQ c h
  | cons a as ih =>
    cases a with
    | start => exact ⟨h.1, h.2.1, ih h.2.2⟩
    | stop =>
      rw [Does] at h ⊢
      split at h
      · exact h
      · exact ⟨h.1, ih h.2⟩
    | shift => cases p <;> exact ih h
    | fail => exact h
    | _ => exact ih h

end Point

namespace Run

/-- Only the nodes of open tokens will change before the document is `e`, and these keep kind and place. -/
structure Fixed (e d : Document) (r : Run σ) : Prop where
  node_eq : ∀ x < d.size, x ≠ root → x ∉ r.openNodes → e.node x = d.node x
  like : ∀ x < d.size, e.kind x = d.kind x ∧ e.place x = d.place x

namespace Fixed

theorem of_act (h : r'.Fixed e d') (ha : r.act m p a d = .ok (r', p') d') : r.Fixed e d := by
  have hsame : r'.openNodes = r.openNodes → r'.Fixed e d → r.Fixed e d := fun ho h => ⟨ho ▸ h.node_eq, h.like⟩
  cases acts ha with
  | record => exact hsame (openNodes_append _ _) h
  | replace => exact hsame (openNodes_append _ _) h
  | shift => cases p <;> exact hsame rfl h
  | @start k _ _ hs =>
    obtain ⟨rfl, rfl⟩ := start_eq_ok hs
    have hlt : ∀ {x}, x < d.size → x < (d.create k r.place).2.size := fun hx =>
      (Nat.lt_succ_of_lt hx).trans_eq (size_create ..).symm
    refine ⟨fun x hx hroot ho => ?_, fun x hx => ?_⟩
    · rw [h.node_eq x (hlt hx) hroot (not_mem_cons_of_ne_of_not_mem (ne_of_lt hx) ho), create_of_lt hx]
    · obtain ⟨hk, hp⟩ := h.like x (hlt hx)
      rw [hk, hp, kind, Document.place, create_of_lt hx]
      exact ⟨rfl, rfl⟩
  | stop hs =>
    obtain ⟨u, us, ho, rfl, rfl⟩ := stop_eq_ok hs
    have hsize : (d.setBranch u.node 0 u.content.reverse).size = d.size := size_modify _ _ _
    have hopen : r.openNodes = u.node :: (({ r with opened := us }.append (.node u.node)).openNodes) := by
      rw [openNodes_append, openNodes, ho]
      rfl
    refine ⟨fun x hx hroot hx' => ?_, fun x hx => ?_⟩
    · rw [hopen] at hx'
      rw [h.node_eq x (hsize ▸ hx) hroot (not_mem_of_not_mem_cons hx')]
      exact modify_ne (ne_of_not_mem_cons hx')
    · obtain ⟨hk, hp⟩ := h.like x (hsize ▸ hx)
      exact ⟨hk.trans (modify_of_eq Node.kind rfl), hp.trans (modify_of_eq Node.place rfl)⟩
  | _ => exact hsame rfl h

theorem of_perform (h : r'.Fixed e d') (hok : perform m as p r d = .ok r' d') : r.Fixed e d := by
  induction as generalizing r d p with
  | nil => cases hok; exact h
  | cons a as ih =>
    obtain ⟨⟨r1, p1⟩, d1, ha, hok⟩ := bind_eq_ok.mp hok
    exact (ih hok).of_act ha

/-- A token is as it is closed. -/
theorem branches_stop {u : OpenToken} {us : List OpenToken} (hr : r.Held d [root]) (ho : r.opened = u :: us)
    (h : r'.Fixed e (d.setBranch u.node 0 u.content.reverse)) (ho' : r'.openNodes = us.map (·.node)) :
    e.branches u.node = [u.content.reverse] := by
  have hc := hr.closing ho
  obtain ⟨hnot, -⟩ := nodup_cons.mp (nodup_append.mp hc.grove.nodup).2.1
  have hopen : u.node ∉ r'.openNodes := fun hmem => by
    rw [ho'] at hmem
    exact hnot (mem_append_right _ (mem_append_left _ (mem_loose_of_open (r := { r with opened := us }) hmem)))
  rw [branches, h.node_eq _ (by rw [setBranch, size_modify]; exact hc.grove.lt_head)
    (fun heq => hnot (heq ▸ by simp)) hopen, setBranch, modify_self hc.grove.lt_head, Node.setBranch_zero,
    hc.branches_eq]
  rfl

end Fixed

def point (d : Document) (r : Run σ) : Point σ := ⟨r.states, r.place, r.pile, r.ahead, d.size⟩

theorem point_append (d : Document) (r : Run σ) (f : Fragment) :
    (r.append f).point d = { r.point d with pile := r.pile.add f } := by
  rw [point, states_append, place_append, pile_append, ahead_append]
  rfl

theorem does_of_perform (hr : r.Held d [root]) (hf : r'.Fixed e d') (hahead : p = true → r.ahead = m ++ t)
    (hok : perform m as p r d = .ok r' d') : Point.Does e m t (· = r'.point d') as p (r.point d) := by
  induction as generalizing r d p with
  | nil => cases hok; exact rfl
  | cons a as ih =>
    obtain ⟨⟨r1, p1⟩, d1, ha, hok⟩ := bind_eq_ok.mp hok
    have hf1 := hf.of_perform hok
    have hahead1 : p1 = true → r1.ahead = m ++ t := fun hp1 => by
      obtain ⟨hahead1, -, -, hp⟩ := act_position ha
      rw [hp1, eq_comm, Bool.and_eq_true, Bool.not_eq_true'] at hp
      rw [hahead1, hp.2, Bool.and_false]
      exact hahead hp.1
    have hdoes := ih (hr.act ha).held hahead1 hok
    cases acts ha with
    | push => exact hdoes
    | pop hs =>
      show Point.Does e m t _ as p { r.point d with states := r.states.tail }
      rw [hs]
      exact hdoes
    | record => rwa [point_append] at hdoes
    | replace => rwa [point_append] at hdoes
    | shift =>
      cases p with
      | false => exact hdoes
      | true =>
        have hpoint : (r.shift m).point d = ⟨r.states, r.place.advance m, r.pile, t, d.size⟩ := by
          simp [point, Run.shift, hahead rfl, pile]
        rw [if_pos rfl, hpoint] at hdoes
        exact hdoes
    | start hs =>
      obtain ⟨rfl, rfl⟩ := start_eq_ok hs
      obtain ⟨hk, hp⟩ := hf1.like d.size ((Nat.lt_succ_self _).trans_eq (size_create ..).symm)
      simp only [point, size_create] at hdoes
      exact ⟨hk.trans (congrArg Node.kind create_self), hp.trans (congrArg Node.place create_self), hdoes⟩
    | stop hs =>
      obtain ⟨u, us, ho, rfl, rfl⟩ := stop_eq_ok hs
      have hpile : (r.point d).pile.opened = (u.node, u.content) :: { r with opened := us }.pile.opened := by
        simp [point, pile, ho]
      rw [point_append] at hdoes
      simp only [point, setBranch, size_modify] at hdoes
      rw [Point.Does, hpile]
      exact ⟨hf1.branches_stop hr ho (openNodes_append _ _), hdoes⟩

theorem exists_perform {states : List σ} {n : Nat} (d : Document) (p : Bool)
    (hs : as.foldlM LexAction.statesAfter? r.states = some states)
    (hn : as.foldlM LexAction.tokensAfter? r.opened.length = some n) (hrefuses : as.any LexAction.refuses = false) :
    ∃ r' d', perform m as p r d = .ok r' d' := by
  induction as generalizing r d p with
  | nil => exact ⟨r, d, rfl⟩
  | cons a as ih =>
    obtain ⟨ha, hrefuses⟩ := Bool.or_eq_false_iff.mp hrefuses
    obtain ⟨states1, hs1, hs⟩ := Option.bind_eq_some_iff.mp hs
    obtain ⟨n1, hn1, hn⟩ := Option.bind_eq_some_iff.mp hn
    cases hact : r.act m p a d with
    | ok q d1 =>
      obtain ⟨r', d', hok⟩ := ih d1 q.2 ((act_states p d hs1).ok q d1 hact ▸ hs)
        ((act_tokens p d hn1).ok q d1 hact ▸ hn) hrefuses
      exact ⟨r', d', bind_eq_ok.mpr ⟨q, d1, hact, hok⟩⟩
    | error e d1 =>
      obtain ⟨fault, rfl, ⟨rfl, heq, -⟩ | ⟨rfl, heq, -⟩ | ⟨reason, rfl, -⟩⟩ := act_error hact
      · rw [heq] at hs1
        cases hs1
      · rw [heq] at hn1
        cases hn1
      · cases ha

end Run

namespace Grammar

variable [DecidableEq σ] {g : Grammar σ} {path source : String} {known : List (List σ)} {states : List σ} {n : Nat}

/-- From a point on the source is read to its end, and the document is `e` there. -/
inductive Completes (g : Grammar σ) (known : List (List σ)) (e : Document) : Point σ → Prop where
  | done {states : List σ} {place : Place} {out : Branch} : states ∈ known → (∀ s ∈ states, g.mayEnd s = true) →
      e.branches root = [out.reverse] → Completes g known e ⟨states, place, ⟨[], out⟩, [], e.size⟩
  | rule {states : List σ} {place : Place} {pile : Pile} {size : NodeId} {rule : Rule σ} {m t : List Char}
      {c : Point σ} : states ∈ known → m ++ t ≠ [] →
      g.next? (states.headD g.initial) (m ++ t) = some (rule, m) → rule.pattern.Describes m →
      Point.Does e m t (· = c) rule.actions true ⟨states, place, pile, m ++ t, size⟩ →
      rule.statesAfter? states = some c.states →
      c.ahead = (if rule.actions.any LexAction.shifts then (m ++ t).drop m.length else m ++ t) → Completes g known e c →
      Completes g known e ⟨states, place, pile, m ++ t, size⟩

theorem completes_of_tokenize (hc : g.Closed known) (h : g.tokenize [] [] root (ofSource path source) = .ok () e) :
    g.Completes known e ⟨[], .startOf path, ⟨[], []⟩, source.toList, 1⟩ := by
  obtain ⟨rF, dF, hread, hfinish, rfl, hroot, -⟩ := exists_run_of_tokenize h
  obtain ⟨hopened, hends, -, -⟩ := Run.finish_eq_ok.mp hfinish
  obtain ⟨hleads, hahead⟩ := leads_of_scan hread
  generalize he : dF.setBranch root 0 rF.out.reverse = e at *
  have hstart : Run.point ((ofSource path source).setBranch root 0 []) (({ place := .startOf path } : Run σ).load source) =
      ⟨[], .startOf path, ⟨[], []⟩, source.toList, 1⟩ := by
    rw [Run.point, setBranch, size_modify, ofSource_eq]
    rfl
  rw [← hstart]
  refine (hleads.backwards (P := fun r d => r.Held d [root] → r.states ∈ known →
    r.Fixed e d ∧ g.Completes known e (r.point d)) (fun _ hs => ⟨⟨?_, ?_⟩, ?_⟩)
    (fun {r d r1 d1} hne hrun ih hr hs => ?_) ((held_start path source).of_pile rfl) hc.start).2
  · exact fun x _ hx _ => by rw [← he]; exact modify_ne hx
  · exact fun _ _ => by rw [← he]; exact ⟨modify_of_eq Node.kind rfl, modify_of_eq Node.place rfl⟩
  · have hend : rF.point dF = ⟨rF.states, rF.place, ⟨[], rF.out⟩, [], e.size⟩ := by
      rw [Run.point, Run.pile, hopened, hahead, ← he, setBranch, size_modify]
      rfl
    rw [hend]
    exact .done hs hends (by rw [branches, hroot])
  · obtain ⟨hf, hcompletes⟩ := ih (hr.step hrun).held ((step_states hc d hs).ok _ _ hrun)
    obtain ⟨rule, m, hnext, hok⟩ := Run.step_eq_ok hrun
    obtain ⟨hrule, _, hsplit⟩ := next?_eq_some hnext
    obtain ⟨t, hahead⟩ : ∃ t, r.ahead = m ++ t := ⟨_, (Pattern.append_of_split? hsplit).symm⟩
    refine ⟨hf.of_perform hok, ?_⟩
    obtain ⟨states, -, hafter⟩ := hc.rule r.states hs rule hrule
    have hdoes := Run.does_of_perform hr hf (fun _ => hahead) hok
    have hpoint : r.point d = ⟨r.states, r.place, r.pile, m ++ t, d.size⟩ := by rw [Run.point, hahead]
    rw [hpoint] at hdoes ⊢
    rw [hahead] at hne hnext
    refine .rule hs hne hnext (Pattern.describes_of_split? hsplit) hdoes ?_
      (by rw [← hahead]; exact (Run.perform_position hok).1) hcompletes
    rw [hafter, ← (Run.perform_states true d hafter).ok _ _ hok]
    rfl

/-- A text is read to its end, from given states and a number of open tokens on. -/
inductive Accepts (g : Grammar σ) : List σ → Nat → List Char → Prop where
  | done {states : List σ} : (∀ s ∈ states, g.mayEnd s = true) → Accepts g states 0 []
  | rule {states states' : List σ} {n n' : Nat} {text m : List Char} {rule : Rule σ} : text ≠ [] →
      g.next? (states.headD g.initial) text = some (rule, m) → rule.actions.any LexAction.refuses = false →
      rule.statesAfter? states = some states' → rule.tokensAfter? n = some n' →
      Accepts g states' n' (if rule.actions.any LexAction.shifts then text.drop m.length else text) →
      Accepts g states n text

theorem Accepts.exists_leads (hg : g.Lively) {text : List Char} (h : g.Accepts states n text) (hs : r.states = states)
    (hn : r.opened.length = n) (ht : r.ahead = text) : ∃ r' d', g.Leads (r, d) (r', d') ∧ r'.ahead = [] ∧
      (∀ s ∈ r'.states, g.mayEnd s = true) ∧ r'.opened = [] := by
  induction h generalizing r d with
  | done hends => exact ⟨r, d, .refl, ht, hs ▸ hends, length_eq_zero_iff.mp hn⟩
  | rule hne hnext hrefuses hstates htokens _ ih =>
    subst hs hn ht
    obtain ⟨r1, d1, hok⟩ := Run.exists_perform d true hstates htokens hrefuses
    obtain ⟨r', d', hleads, hend⟩ := ih ((Run.perform_states true d hstates).ok _ _ hok)
      ((Run.perform_tokens true d htokens).ok _ _ hok) (by rw [(Run.perform_position hok).1, Bool.true_and])
    exact ⟨r', d', .head (hg.fires hne hnext hok) hleads, hend⟩

theorem Accepts.exists_tokenize (hg : g.Lively) (h : g.Accepts [] 0 source.toList) (path : String) :
    ∃ d, g.tokenize [] [] root (ofSource path source) = .ok () d := by
  obtain ⟨r, d, hleads, hahead, hends, hopened⟩ := h.exists_leads hg
    (r := { place := .startOf path, ahead := source.toList }) rfl rfl rfl
  exact ⟨_, hg.tokenize hleads hahead hends hopened⟩

end Grammar

end Stencil
