import Stencil.Proofs.Template.Termination

/-!
# Decorate tags, one in turn

Decorate tags can also be expanded by a loop that knows nothing of levels: as long as there is a tag
outside raw output, the first one in the document gives way (`expandDecoratesInTurn`).

The loop does what the recursion over nested tags does, and ends with it: **from some number
of rounds on, a limit on the rounds is not reached** (`decorating_in_turn_ends`), and then no tag is
left.
-/

namespace Stencil

open Document List

variable {α : Type}

namespace Template

variable {d d1 d2 : Document} {L rest : List NodeId} {c id p t x : NodeId} {n : Nat}
  {load : Loader} {j : Job}

theorem mem_tags (h : d.Grove L) (hid : id < d.size) :
    t ∈ tags d id ↔ d.Met (isCooked d) id t ∧ d.kind t = .decorate := by
  rw [tags, mem_descendants_iff (h.shallow_kids hid), mem_singleton]
  rfl

theorem Decorated.tags_eq (hdec : Decorated n d d1 p t) (hg : d.Grove L) (hg1 : d1.Grove L)
    (hid : id < d.size) (htags : tags d id = t :: tags d t ++ rest) :
    tags d1 id = tags d1 d.size ++ rest := by
  have ht : t ∈ tags d id := by rw [htags]; simp
  obtain ⟨hmet, hk⟩ := (mem_tags hg hid).mp ht
  have henter : ∀ y < d.size, d1.isCooked y = d.isCooked y := fun y hy =>
    isCooked_congr (hdec.kind_eq_of_lt hy)
  obtain ⟨before, after, hd, hd1⟩ := hdec.walk_eq hg henter hg1 hid hmet
  have hkeep : ∀ {l : List NodeId}, (∀ y ∈ l, y ∈ d.walk id (isCooked d)) →
      l.filter (isTag d1) = l.filter (isTag d) := fun {l} hl =>
    filter_congr fun y hy => isTag_congr <| hdec.kind_eq_of_lt <|
      hg.lt_of_reaches hid (reaches_of_enc (encloses_of_below (hl y hy)))
  -- the tag is the first one, so the walk meets none before it
  have hbef : before.filter (isTag d) = [] := by
    have hnot : t ∉ before := fun hmem => by
      have hn := hg.nodup_walk id (isCooked d)
      rw [hd, walkFrom, append_assoc] at hn
      exact (nodup_append.mp hn).2.2 t hmem t (by simp) rfl
    rw [tags_eq_filter, hd, filter_append, filter_append, filter_walkFrom_tag hk] at htags
    cases hl : before.filter (isTag d) with
    | nil => rfl
    | cons b l =>
      rw [hl] at htags
      obtain rfl : b = t := (List.cons.inj htags).1
      exact absurd (mem_of_mem_filter (hl ▸ mem_cons_self)) hnot
  have hafter : after.filter (isTag d) = rest := by
    rw [tags_eq_filter, hd, filter_append, filter_append, filter_walkFrom_tag hk, hbef] at htags
    exact append_cancel_left htags
  have hnew : d1.kind d.size ≠ .decorate ∧ d1.kind d.size ≠ .rawOutput := by
    rw [hdec.kind_new]
    exact ⟨Kind.noConfusion, Kind.noConfusion⟩
  rw [tags_eq_filter d1 id, hd1, filter_append, filter_append,
    filter_walkFrom_other hnew.1 hnew.2, hkeep fun y hy => by rw [hd]; simp [hy],
    hkeep fun y hy => by rw [hd]; simp [hy], hbef, hafter, nil_append]

/-- Expands the first decorate tag that is not in raw output, as long as there is one. After so many
rounds `cut` decides what is done. -/
def expandDecoratesInTurn (cut : Work Unit) (load : Loader) : (rounds : Nat) → Work Unit
  | 0 => cut
  | rounds + 1 => do
    match ((← Work.document).descendants root [.decorate] [.rawOutput]).head? with
    | none => return
    | some tag => do
      let _ ← expandDecorate load tag
      expandDecoratesInTurn cut load rounds

/-- From the given state on, the work is what the next rounds do. -/
def IsRounds {α : Type} (load : Loader) (w : Work α) (j : Job) : Prop :=
  ∃ k, ∀ cut rounds, expandDecoratesInTurn cut load (k + rounds) j =
    (w >>= fun _ => expandDecoratesInTurn cut load rounds) j

namespace IsRounds

theorem pure (a : α) : IsRounds load (Pure.pure a : Work α) j :=
  ⟨0, fun cut rounds => by rw [Nat.zero_add]; rfl⟩

theorem bind {β : Type} {w : Work α} {f : α → Work β} (hw : IsRounds load w j)
    (hf : ∀ a j', w j = .ok a j' → IsRounds load (f a) j') : IsRounds load (w >>= f) j := by
  obtain ⟨k, hk⟩ := hw
  -- the rounds after the work has succeeded, if it does
  obtain ⟨m, hm⟩ : ∃ m, ∀ a j', w j = .ok a j' → ∀ cut rounds,
      expandDecoratesInTurn cut load (m + rounds) j' =
        (f a >>= fun _ => expandDecoratesInTurn cut load rounds) j' := by
    cases hok : w j with
    | error e j' => exact ⟨0, fun a j' h => by cases h⟩
    | ok a j' =>
      obtain ⟨m, hm⟩ := hf a j' hok
      exact ⟨m, fun a' j'' h => by cases h; exact hm⟩
  refine ⟨k + m, fun cut rounds => ?_⟩
  rw [Nat.add_assoc, hk, bind_assoc]
  exact estate_bind_congr rfl fun a j' hok => hm a j' hok cut rounds

theorem expandDecorate (ht : (tags j.document root).head? = some t) :
    IsRounds load (expandDecorate load t) j := by
  refine ⟨1, fun cut rounds => ?_⟩
  rw [Nat.add_comm, expandDecoratesInTurn, Work.document_bind, ← tags, ht]

theorem along : Along fun w _ j => IsRounds load w j where
  pure a _ := .pure a
  bind := bind
  document h := h

end IsRounds

theorem expandDecoratesBelow_isRounds (hl : load.Settles) {levels : Nat} (hn : n < levels)
    (hg : j.document.Grove (root :: L)) (hid : Reaches j.document.kids root id)
    (hnest : ∀ c ∈ j.document.kids id, Nested j.document n c)
    (htags : tags j.document root = tags j.document id ++ rest) :
    IsRounds load (expandDecoratesBelow load levels id) j ∧
      ∀ j', expandDecoratesBelow load levels id j = .ok () j' →
        j'.document.Grove (root :: L) ∧ Cleared j.document (outerTags j.document id) j'.document ∧
          tags j'.document root = rest := by
  rw [expandDecoratesBelow_eq]
  refine expandDecorates_along (E := fun j ts => tags j.document root = ts) (g := load)
    IsRounds.along hl (fun {j t ts} htags => ⟨?_, fun hdec hg hg' _ => ?_⟩) _ (fun _ => pure ()) hn hn hg
    hid hnest htags
  · exact .expandDecorate (by rw [htags]; rfl)
  · exact hdec.tags_eq hg hg' (root_lt hg) htags

/-- A tag without a literal name, or an error of the loader. -/
def Loader.Stops (load : Loader) (e : Error) : Prop :=
  (∃ place, e = .template place .variableDecorator) ∨
    ∃ name place s s', load name place s = .error e s'

theorem expandDecorate_yields (t : NodeId) (j : Job) :
    Yields (expandDecorate load t) j (fun _ _ => True) fun e _ => load.Stops e := by
  rw [expandDecorate]
  refine Yields.congr (Work.document_bind _) ?_
  cases literalArgument? j.document t 1 with
  | none => exact .throw (.inl ⟨_, rfl⟩)
  | some name =>
    have hload : Yields (Work.task (load name (j.document.place t))) j (fun _ _ => True)
        fun e _ => load.Stops e := by
      refine ⟨fun _ _ _ => trivial, fun e j' he => .inr ?_⟩
      rw [Work.task] at he
      cases hl : load name (j.document.place t) j.session with
      | ok d s => rw [hl] at he; cases he
      | error e' s =>
        rw [hl] at he
        cases he
        exact ⟨name, _, _, _, hl⟩
    refine hload.bind fun template j1 _ => ⟨fun _ _ _ => trivial, fun e j' he => ?_⟩
    cases he

theorem expandDecoratesBelow_yields (levels : Nat) (id : NodeId) (j : Job) :
    Yields (expandDecoratesBelow load levels id) j (fun _ _ => True) fun e _ => load.Stops e := by
  induction levels generalizing id j with
  | zero => exact .pure trivial
  | succ levels ih =>
    rw [expandDecoratesBelow]
    refine Yields.congr (Work.document_bind _) ?_
    generalize j.document.descendants id _ _ = l
    induction l generalizing j with
    | nil => exact .pure trivial
    | cons t l ih' =>
      refine Yields.bind (R := fun _ _ => True) ?_ fun _ j2 _ => ih' j2
      exact (expandDecorate_yields t j).bind fun node j1 _ => ih node j1

/-- **Expanding decorate tags one in turn comes to an end**, if the loader gives templates without tags:
it does the same with any large enough number of rounds, whatever is done after the last one. That is
what the expansion of nested tags does. Where it succeeds, no tag is left outside raw output; only a tag
without a literal name and the loader can stop it. -/
theorem decorating_in_turn_ends (hl : load.Settles) (hg : j.document.Grove [root]) :
    (∃ most, ∀ rounds, most ≤ rounds → ∀ cut,
      expandDecoratesInTurn cut load rounds j = expandDecorates load j) ∧
    (∀ j', expandDecorates load j = .ok () j' → ∀ x,
      j'.document.Met (fun y => !j'.document.hasKind y [.rawOutput]) root x →
        j'.document.kind x ≠ .decorate) ∧
    ∀ e j', expandDecorates load j = .error e j' → (∃ place, e = .template place .variableDecorator) ∨
      ∃ name place s s', load name place s = .error e s' := by
  have hroot := root_lt hg
  have hnest : ∀ c ∈ j.document.kids root, Nested j.document (j.document.size - 1) c := fun c hc =>
    .of_shallow ((hg.shallow_kids hroot).child hc)
  have htags : tags j.document root = tags j.document root ++ [] := (List.append_nil _).symm
  obtain ⟨⟨k, hk⟩, hdone⟩ := expandDecoratesBelow_isRounds hl
    (Nat.sub_lt (Nat.zero_lt_of_lt hroot) Nat.one_pos) hg .refl hnest htags
  rw [expandDecorates, Work.document_bind]
  refine ⟨⟨k + 1, fun rounds hrounds cut => ?_⟩, fun j' hok x hmet hx => ?_,
    (expandDecoratesBelow_yields _ root j).error⟩
  · obtain ⟨more, rfl⟩ := Nat.exists_eq_add_of_le hrounds
    rw [Nat.add_assoc, hk]
    -- with one more round it turns out that no tag is left
    refine (estate_bind_congr rfl fun _ j' hok => ?_).trans (congrFun (bind_pure_unit) j)
    rw [Nat.add_comm, expandDecoratesInTurn, Work.document_bind, ← tags, (hdone j' hok).2.2]
    rfl
  · obtain ⟨hg', -, htags⟩ := hdone j' hok
    have hmem := (mem_tags hg' (root_lt hg')).mpr ⟨hmet, hx⟩
    rw [htags] at hmem
    cases hmem

def doublingFrame : Library := .listing
  [("f", some "[\x7b\x7b decorater.content \x7d\x7d|\x7b\x7b decorater.content \x7d\x7d]")]

def framedTwice : String :=
  "\x7b% decorate \"f\" %\x7d\x7b% decorate \"f\" %\x7dx\x7b% enddecorate %\x7d\x7b% enddecorate %\x7d"

/-- The first round copies the inner tag, so there are three rounds for two tags. -/
theorem decorating_in_turn_ends_doubled : ∃ d j', parse (ofSource "page" framedTwice) = .ok () d ∧
    expandDecorates ({ templates := doublingFrame } : Session).loader
      { session := { templates := doublingFrame }, document := d } = .ok () j' ∧
    j'.document.output = "[[x|x]|[x|x]]" ∧
    (∃ most, ∀ rounds, most ≤ rounds → ∀ cut,
      expandDecoratesInTurn cut ({ templates := doublingFrame } : Session).loader rounds
        { session := { templates := doublingFrame }, document := d } = .ok () j') ∧
    ∀ x, j'.document.Met (fun y => !j'.document.hasKind y [.rawOutput]) root x →
      j'.document.kind x ≠ .decorate := by
  have hok : succeeds (do
        Work.edit parse
        expandDecorates ({ templates := doublingFrame } : Session).loader)
      ({ session := { templates := doublingFrame }, document := ofSource "page" framedTwice } : Job)
      (fun _ j => j.document.output == "[[x|x]|[x|x]]") = true := by
    decide +kernel
  obtain ⟨_, j', h, hcheck⟩ := of_succeeds hok
  obtain ⟨_, j1, hedit, hdecorates⟩ := bind_eq_ok.mp h
  obtain ⟨d, hparse, rfl⟩ := Work.edit_eq_ok.mp hedit
  have hgrove : d.Grove [root] :=
    (parse_sustains.sustained (grove_ofSource "page" framedTwice) hedit).grove
  obtain ⟨⟨most, hmost⟩, hnone, -⟩ := decorating_in_turn_ends
    (j := { session := { templates := doublingFrame }, document := d }) (loadTemplate_settles _) hgrove
  exact ⟨d, j', hparse, hdecorates, beq_iff_eq.mp hcheck,
    ⟨most, fun rounds hrounds cut => (hmost rounds hrounds cut).trans hdecorates⟩, hnone j' hdecorates⟩

end Template

end Stencil
