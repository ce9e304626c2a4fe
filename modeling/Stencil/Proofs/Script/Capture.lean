import Stencil.Script.Renaming
import Stencil.Proofs.Script.Respelling
import Stencil.Proofs.Script.ShortNames

/-!
# Renaming without capture

The renaming of a script goes down from the script with the names that are taken: the free names and
those given in the scopes around (`Visit`). Declarations whose names are apart in this sense (`Apart`)
are found by the same lookups as before: the same declarations count (`Apart.namesOf_respell`), the same
ones repeat others (`Apart.repetitions_respell`), and a name stands for the same declaration wherever it
is looked up (`Apart.resolve?_respell`).
-/

namespace Stencil.Script

open List

variable {id scope x : NodeId} {taken taken' : List String} {levels : Nat} {name : String}
  {d d' : Document} {ds : List Declaration} {script : NodeId} {free : List String}

section Assign

variable {es : List Declaration} {r r' : Renaming}

theorem assign_map_declaration (taken : List String) (es : List Declaration) :
    (assign taken es).map (·.declaration) = es := by
  induction es generalizing taken with
  | nil => rfl
  | cons e more ih => rw [assign, map_cons, ih]

theorem not_mem_taken_of_mem_assign (h : r ∈ assign taken es) : r.short ∉ taken := by
  induction es generalizing taken with
  | nil => cases h
  | cons e more ih =>
    rcases mem_cons.mp h with rfl | h
    · exact ShortName.firstFree_not_mem taken
    · exact fun hmem => ih h (mem_cons_of_mem _ hmem)

theorem not_reserved_of_mem_assign (h : r ∈ assign taken es) :
    ShortName.isReserved r.short = false := by
  induction es generalizing taken with
  | nil => cases h
  | cons e more ih =>
    rcases mem_cons.mp h with rfl | h
    · exact ShortName.firstFree_not_reserved taken
    · exact ih h

theorem assign_short_nodup (taken : List String) (es : List Declaration) :
    ((assign taken es).map (·.short)).Nodup := by
  induction es generalizing taken with
  | nil => exact nodup_nil
  | cons e more ih =>
    refine nodup_cons.mpr ⟨fun hmem => ?_, ih _⟩
    obtain ⟨r, hr, hs⟩ := mem_map.mp hmem
    exact not_mem_taken_of_mem_assign hr (hs ▸ mem_cons_self)

end Assign

def ownRenamings (ds : List Declaration) (script : NodeId) (taken : List String) (id : NodeId) :
    List Renaming :=
  if id == script then [] else assign taken (namesOf ds id)

/-- The renaming of a script comes to a node with some names taken. -/
inductive Visit (d : Document) (ds : List Declaration) (script : NodeId) (free : List String) :
    NodeId → List String → Prop where
  /-- It starts at the script with the free names. -/
  | start : Visit d ds script free script free
  /-- It goes to a child with the names given at the node as well. -/
  | down {p c : NodeId} {taken : List String} : Visit d ds script free p taken → c ∈ d.kids p →
      Visit d ds script free c ((ownRenamings ds script taken p).map (·.short) ++ taken)

namespace Visit

variable {p c : NodeId}

theorem reaches (h : Visit d ds script free x taken) : Reaches d.refs script x := by
  induction h with
  | start => exact .refl
  | down _ hc ih => exact ih.tail (d.kids_sub _ hc)

theorem exists_of_encloses (h : Visit d ds script free p taken) (hx : d.Encloses p x) :
    ∃ taken', Visit d ds script free x taken' := by
  induction hx with
  | single hc => exact ⟨_, h.down hc⟩
  | tail _ hc ih =>
    obtain ⟨taken', hv⟩ := ih
    exact ⟨_, hv.down hc⟩

theorem free_subset (h : Visit d ds script free x taken) : free ⊆ taken := by
  induction h with
  | start => exact List.Subset.refl _
  | down _ _ ih => exact subset_append_of_subset_right _ ih

theorem unique (hu : d.UniqueOwner script) (h : Visit d ds script free x taken)
    (h' : Visit d ds script free x taken') : taken = taken' := by
  induction h generalizing taken' with
  | start =>
    cases h' with
    | start => rfl
    | down hv hc => exact absurd (d.kids_sub _ hc) (hu.top_free hv.reaches)
  | down hv hc ih =>
    cases h' with
    | start => exact absurd (d.kids_sub _ hc) (hu.top_free hv.reaches)
    | down hv' hc' =>
      obtain rfl := hu.owner_eq hv.reaches hv'.reaches (d.kids_sub _ hc)
        (d.kids_sub _ hc')
      rw [ih hv']

theorem own_subset (hu : d.UniqueOwner script) (hp : Visit d ds script free p taken)
    (hx : d.Encloses p x) (h : Visit d ds script free x taken') :
    (ownRenamings ds script taken p).map (·.short) ⊆ taken' := by
  induction hx generalizing taken' with
  | single hc =>
    rw [h.unique hu (hp.down hc)]
    exact subset_append_left _ _
  | tail hr hc ih =>
    obtain ⟨between, hv⟩ := hp.exists_of_encloses hr
    rw [h.unique hu (hv.down hc)]
    exact subset_append_of_subset_right _ (ih hv)

end Visit

theorem exists_visit_of_mem_renamingsBelow {r : Renaming} (hv : Visit d ds script free id taken)
    (hr : r ∈ renamingsBelow d ds script levels taken id) :
    ∃ x taken', Visit d ds script free x taken' ∧ r ∈ ownRenamings ds script taken' x := by
  induction levels generalizing id taken with
  | zero => cases hr
  | succ levels ih =>
    rcases mem_append.mp hr with hr | hr
    · exact ⟨id, taken, hv, hr⟩
    · obtain ⟨c, hc, hr⟩ := mem_flatMap.mp hr
      exact ih (hv.down hc) hr

theorem ownRenamings_subset (hu : d.UniqueOwner script) (hs : Shallow d.kids levels id)
    (hid : Visit d ds script free id taken) (hx : Reaches d.kids id x)
    (hv : Visit d ds script free x taken') :
    ownRenamings ds script taken' x ⊆ renamingsBelow d ds script levels taken id := by
  induction levels generalizing id taken with
  | zero => exact hs.elim
  | succ levels ih =>
    intro r hr
    rcases hx.eq_or_child with rfl | ⟨c, hc, hx⟩
    · rw [hv.unique hu hid] at hr
      exact mem_append_left _ hr
    · exact mem_append_right _ (mem_flatMap.mpr
        ⟨c, hc, ih (hs c hc) (hid.down hc) hx hr⟩)

section Renamings

abbrev renamingsOf (d : Document) (ds : List Declaration) (script : NodeId) (free : List String) :
    List Renaming :=
  renamingsBelow d ds script d.size free script

variable {r r' : Renaming}

theorem mem_namesOf {e : Declaration} : e ∈ namesOf ds scope ↔
    e ∈ ds ∧ e.scope = scope ∧ declarationOf? ds e.scope e.name = some e := by
  rw [namesOf, mem_filter, mem_filter]
  constructor
  · rintro ⟨⟨he, hs⟩, hd⟩
    rw [beq_iff_eq] at hs hd
    exact ⟨he, hs, hs ▸ hd⟩
  · rintro ⟨he, rfl, hd⟩
    exact ⟨⟨he, beq_self_eq_true _⟩, beq_iff_eq.mpr hd⟩

theorem exists_visit (h : r ∈ renamingsOf d ds script free) : ∃ taken,
    Visit d ds script free r.declaration.scope taken ∧
      r ∈ ownRenamings ds script taken r.declaration.scope ∧
      r.declaration ∈ namesOf ds r.declaration.scope := by
  obtain ⟨x, taken, hv, hr⟩ := exists_visit_of_mem_renamingsBelow .start h
  have hown := hr
  rw [ownRenamings] at hown
  split_ifs at hown with hx
  · cases hown
  · have he : r.declaration ∈ namesOf ds x := by
      rw [← assign_map_declaration taken (namesOf ds x)]
      exact mem_map_of_mem hown
    obtain ⟨-, rfl, -⟩ := mem_namesOf.mp he
    exact ⟨taken, hv, hr, he⟩

theorem not_mem_taken_of_own (h : r ∈ ownRenamings ds script taken x) : r.short ∉ taken := by
  rw [ownRenamings] at h
  split_ifs at h
  · cases h
  · exact not_mem_taken_of_mem_assign h

theorem short_not_reserved (h : r ∈ renamingsOf d ds script free) :
    ShortName.isReserved r.short = false := by
  obtain ⟨taken, -, hr, -⟩ := exists_visit h
  rw [ownRenamings] at hr
  split_ifs at hr
  · cases hr
  · exact not_reserved_of_mem_assign hr

theorem short_not_free (h : r ∈ renamingsOf d ds script free) : r.short ∉ free := by
  obtain ⟨taken, hv, hr, -⟩ := exists_visit h
  exact fun hmem => not_mem_taken_of_own hr (hv.free_subset hmem)

section

variable (hu : d.UniqueOwner script) (h : r ∈ renamingsOf d ds script free)
  (h' : r' ∈ renamingsOf d ds script free)
include hu h h'

theorem eq_of_short_eq (hscope : r.declaration.scope = r'.declaration.scope)
    (hshort : r.short = r'.short) : r = r' := by
  obtain ⟨taken, hv, hr, -⟩ := exists_visit h
  obtain ⟨taken', hv', hr', -⟩ := exists_visit h'
  rw [← hscope] at hv' hr'
  obtain rfl := hv.unique hu hv'
  rw [ownRenamings] at hr hr'
  split_ifs at hr hr'
  · cases hr
  · exact inj_on_of_nodup_map (assign_short_nodup _ _) hr hr' hshort

theorem short_ne_of_encloses
    (hin : d.Encloses r.declaration.scope r'.declaration.scope) : r.short ≠ r'.short := by
  obtain ⟨taken, hv, hr, -⟩ := exists_visit h
  obtain ⟨taken', hv', hr', -⟩ := exists_visit h'
  intro heq
  exact not_mem_taken_of_own hr' (hv.own_subset hu hin hv' (heq ▸ mem_map_of_mem hr))

end

theorem eq_of_node_eq (hu : d.UniqueOwner script) (hn : (ds.map (·.node)).Nodup)
    (h : r ∈ renamingsOf d ds script free) (h' : r' ∈ renamingsOf d ds script free)
    (heq : r.declaration.node = r'.declaration.node) : r = r' := by
  obtain ⟨taken, hv, hr, he⟩ := exists_visit h
  obtain ⟨taken', hv', hr', he'⟩ := exists_visit h'
  have hd : r.declaration = r'.declaration :=
    inj_on_of_nodup_map hn (mem_namesOf.mp he).1 (mem_namesOf.mp he').1 heq
  rw [← hd] at hv' hr'
  obtain rfl := hv.unique hu hv'
  rw [ownRenamings] at hr hr'
  split_ifs at hr hr'
  · cases hr
  · refine inj_on_of_nodup_map ?_ hr hr' hd
    rw [assign_map_declaration]
    exact ((hn.of_map _).filter _).filter _

theorem exists_renaming (hu : d.UniqueOwner script) (free : List String) {e : Declaration}
    (he : e ∈ namesOf ds e.scope) (hscope : d.Encloses script e.scope) :
    ∃ r ∈ renamingsOf d ds script free, r.declaration = e := by
  have hstart : Visit d ds script free script free := .start
  obtain ⟨taken, hv⟩ := hstart.exists_of_encloses hscope
  have hne : e.scope ≠ script := fun heq => hu.not_encloses_top (heq ▸ hscope)
  rw [← assign_map_declaration taken (namesOf ds e.scope)] at he
  obtain ⟨r, hr, rfl⟩ := mem_map.mp he
  refine ⟨r, ownRenamings_subset hu hu.shallow_kids .start hscope.to_reflTransGen hv ?_, rfl⟩
  rw [ownRenamings, beq_eq_false_iff_ne.mpr hne, if_neg Bool.false_ne_true]
  exact hr

end Renamings

theorem declarationOf?_eq_some {e : Declaration}
    (h : declarationOf? ds scope name = some e) : e ∈ ds ∧ e.scope = scope ∧ e.name = name := by
  have hp := find?_some h
  rw [Bool.and_eq_true, beq_iff_eq, beq_iff_eq] at hp
  exact ⟨mem_of_find?_eq_some h, hp⟩

theorem exists_declarationOf? {e : Declaration} (he : e ∈ ds) :
    ∃ f, declarationOf? ds e.scope e.name = some f := by
  refine Option.isSome_iff_exists.mp (find?_isSome.mpr ⟨e, he, ?_⟩)
  rw [beq_self_eq_true, beq_self_eq_true]
  rfl

/-- The spelling of declared identifiers in a second document keeps names apart: in one scope it
tells the same names apart, a scope inside another one has none of its names, and no name is
free. -/
structure Apart (d d' : Document) (ds : List Declaration) (free : List String) : Prop where
  eq_iff : ∀ e ∈ ds, ∀ f ∈ ds, e.scope = f.scope →
    (d'.ownText e.node = d'.ownText f.node ↔ e.name = f.name)
  ne_of_encloses : ∀ e ∈ ds, ∀ f ∈ ds, d.Encloses e.scope f.scope →
    d'.ownText e.node ≠ d'.ownText f.node
  not_free : ∀ e ∈ ds, d'.ownText e.node ∉ free

namespace Apart

variable {e f : Declaration}

theorem respell_inj (h : Apart d d' ds free) (he : e ∈ ds) (hf : f ∈ ds) :
    e.respell d' = f.respell d' ↔ e = f := by
  constructor
  · intro heq
    obtain ⟨hs, hn, hx⟩ := Declaration.mk.injEq .. ▸ heq
    have hname := (h.eq_iff e he f hf hs).mp hn
    cases e
    cases f
    simp_all
  · rintro rfl
    rfl

theorem declarationOf?_respell (h : Apart d d' ds free) (he : e ∈ ds) :
    declarationOf? (respell d' ds) e.scope (d'.ownText e.node) =
      (declarationOf? ds e.scope e.name).map (Declaration.respell d') := by
  rw [declarationOf?, declarationOf?, respell, find?_map]
  congr 1
  refine find?_congr fun x hx => ?_
  by_cases hs : x.scope = e.scope
  · simp only [Function.comp_apply, Declaration.respell, hs, beq_self_eq_true, Bool.true_and]
    rw [Bool.eq_iff_iff, beq_iff_eq, beq_iff_eq]
    exact h.eq_iff x hx e he hs
  · simp only [Function.comp_apply, Declaration.respell, beq_eq_false_iff_ne.mpr hs, Bool.false_and]

theorem namesOf_respell (h : Apart d d' ds free) (scope : NodeId) :
    namesOf (respell d' ds) scope = respell d' (namesOf ds scope) := by
  rw [namesOf, namesOf, respell, filter_map, filter_map]
  congr 1
  refine filter_congr fun e hmem => ?_
  obtain ⟨he, hs⟩ := mem_filter.mp hmem
  simp only [Function.comp_apply, Declaration.respell, beq_iff_eq] at hs
  subst hs
  obtain ⟨f, hf⟩ := exists_declarationOf? he
  have hd := h.declarationOf?_respell he
  rw [hf, Option.map_some] at hd
  show (declarationOf? (respell d' ds) e.scope (d'.ownText e.node) == some (e.respell d')) = _
  rw [hd, hf, Bool.eq_iff_iff, beq_iff_eq, beq_iff_eq, Option.some_inj, Option.some_inj]
  exact h.respell_inj (declarationOf?_eq_some hf).1 he

theorem repetitions_respell (h : Apart d d' ds free) :
    repetitions (respell d' ds) = repetitions ds := by
  rw [repetitions, repetitions, respell, filterMap_map]
  refine filterMap_congr fun e he => ?_
  obtain ⟨f, hf⟩ := exists_declarationOf? he
  have hbeq : (f.respell d' == e.respell d') = (f == e) := by
    rw [Bool.eq_iff_iff, beq_iff_eq, beq_iff_eq]
    exact h.respell_inj (declarationOf?_eq_some hf).1 he
  have hd : declarationOf? (ds.map (·.respell d')) (e.respell d').scope (e.respell d').name =
      some (f.respell d') := by
    have hrespell := h.declarationOf?_respell he
    rwa [hf, Option.map_some] at hrespell
  simp only [Function.comp_apply]
  rw [hd, hf]
  simp only [hbeq]
  rfl

theorem respell_eq_none (h : ∀ x ∈ ds, x.scope = scope → d'.ownText x.node ≠ name) :
    declarationOf? (respell d' ds) scope name = none := by
  refine find?_eq_none.mpr fun x hx => ?_
  obtain ⟨e, he, rfl⟩ := mem_map.mp hx
  simp only [Declaration.respell, Bool.and_eq_true, beq_iff_eq, not_and]
  exact h e he

theorem resolve?_respell (h : Apart d d' ds free) {scopes : List NodeId}
    (hs : scopes.Pairwise fun a b => d.Encloses b a) {target : NodeId}
    (hr : resolve? ds scopes name = some target) :
    (∃ e ∈ ds, e.scope ∈ scopes ∧ e.node = target) ∧
      resolve? (respell d' ds) scopes (d'.ownText target) = some target := by
  induction scopes with
  | nil => cases hr
  | cons scope outer ih =>
    obtain ⟨hin, hs⟩ := pairwise_cons.mp hs
    rw [resolve?, findSome?_cons] at hr ⊢
    cases hd : declarationOf? ds scope name with
    | some e =>
      rw [hd] at hr
      obtain rfl : e.node = target := Option.some.inj hr
      obtain ⟨he, rfl, rfl⟩ := declarationOf?_eq_some hd
      refine ⟨⟨e, he, mem_cons_self, rfl⟩, ?_⟩
      rw [h.declarationOf?_respell he, hd]
      rfl
    | none =>
      rw [hd] at hr
      obtain ⟨⟨e, he, hmem, rfl⟩, hr'⟩ := ih hs hr
      refine ⟨⟨e, he, mem_cons_of_mem _ hmem, rfl⟩, ?_⟩
      rw [respell_eq_none fun x hx hxs =>
        (h.ne_of_encloses e he x hx (hxs ▸ hin e.scope hmem)).symm]
      exact hr'

theorem resolve?_respell_eq_none (h : Apart d d' ds free) (scopes : List NodeId)
    (hname : name ∈ free) : resolve? (respell d' ds) scopes name = none := by
  refine findSome?_eq_none_iff.mpr fun scope _ => ?_
  rw [respell_eq_none fun x hx _ heq => h.not_free x hx (heq ▸ hname)]
  rfl

end Apart

end Stencil.Script
