import Stencil.Proofs.Media.Contents

/-!
# The cache as a partial map

A cache has slots, and a slot may be empty because a computation for its key has failed. None of this
can be seen from outside: whatever is asked of a cache, **it answers as a plain partial map from keys to
contents does** (`Cache.answers_of_map`), where a computation is run only for a key that is absent, and
its result is stored only if it succeeds. Computations act on a world of their own, which may be a log of
those that are run; the cache leaves it as the map does.
-/

namespace Stencil

open List

/-- Contents by key. -/
abbrev PartialMap := Key → Option String

namespace Cache

variable {ω ε : Type} {c : Cache} {k k' : Key} {m : PartialMap} {content : String}

/-- What can be asked of a cache. -/
inductive Request (ω ε : Type) where
  /-- The content under a key, computed if there is none. -/
  | fetch (key : Key) (compute : StateM ω (Except ε String))
  /-- What is stored under a key now. -/
  | get (key : Key)
  | invalidate (key : Key)
  | clear

/-- What a cache says to a request. -/
inductive Answer (ε : Type) where
  | fetched (result : Except ε String)
  | found (content : Option String)
  | done

/-- The answer to a request, and the cache behind it. -/
def serve (c : Cache) : Request ω ε → StateM ω (Answer ε × Cache)
  | .fetch k compute => do
    let fetched ← c.fetchM k compute
    return (.fetched fetched.1, fetched.2)
  | .get k => return (.found (c.get? k), c)
  | .invalidate k => return (.done, c.erase k)
  | .clear => return (.done, {})

/-- The answer to a request that is put to a partial map, and the map behind it. -/
def PartialMap.serve (m : PartialMap) : Request ω ε → StateM ω (Answer ε × PartialMap)
  | .fetch k compute => do
    match m k with
    | some content => return (.fetched (.ok content), m)
    | none =>
      match ← compute with
      | .ok content => return (.fetched (.ok content), Function.update m k (some content))
      | .error e => return (.fetched (.error e), m)
  | .get k => return (.found (m k), m)
  | .invalidate k => return (.done, Function.update m k none)
  | .clear => return (.done, fun _ => none)

/-- A request that leaves what is stored under a key. -/
def Request.Spares (k : Key) : Request ω ε → Prop
  | .fetch _ _ | .get _ => True
  | .invalidate k' => k' ≠ k
  | .clear => False

/-- The answers to requests that are made one after the other, and what is behind them. -/
def serveAll {σ : Type} (serve : σ → Request ω ε → StateM ω (Answer ε × σ)) :
    σ → List (Request ω ε) → StateM ω (List (Answer ε) × σ)
  | s, [] => return ([], s)
  | s, r :: rs => do
    let served ← serve s r
    let more ← serveAll serve served.2 rs
    return (served.1 :: more.1, more.2)

theorem run_serveAll_cons {σ : Type} (serve : σ → Request ω ε → StateM ω (Answer ε × σ)) (s : σ)
    (r : Request ω ε) (rs : List (Request ω ε)) (w : ω) :
    (serveAll serve s (r :: rs)).run w =
      let served := (serve s r).run w
      let more := (serveAll serve served.1.2 rs).run served.2
      ((served.1.1 :: more.1.1, more.1.2), more.2) := rfl

theorem serveAll_append {σ : Type} (serve : σ → Request ω ε → StateM ω (Answer ε × σ)) (s : σ)
    (rs later : List (Request ω ε)) (w : ω) :
    ((serveAll serve s (rs ++ later)).run w).1.2 =
      ((serveAll serve ((serveAll serve s rs).run w).1.2 later).run
        ((serveAll serve s rs).run w).2).1.2 := by
  induction rs generalizing s w with
  | nil => rfl
  | cons r rs ih => exact ih ((serve s r).run w).1.2 ((serve s r).run w).2

theorem get?_fill (h : k ∈ c.keys) :
    (c.fill k content).get? k' = if k' = k then some content else c.get? k' := by
  split_ifs with hk
  · subst hk
    obtain ⟨slots⟩ := c
    simp only [keys, get?, fill] at h ⊢
    induction slots with
    | nil => cases h
    | cons slot slots ih =>
      obtain ⟨k1, v⟩ := slot
      by_cases hk : k1 = k'
      · simp [hk]
      · have hne : (k' == k1) = false := beq_eq_false_iff_ne.mpr (Ne.symm hk)
        rw [map_cons, if_neg hk, lookup_cons, hne]
        exact ih ((mem_cons.mp h).resolve_left (Ne.symm hk))
  · exact get?_fill_of_ne hk

theorem get?_erase : (c.erase k).get? k' = if k' = k then none else c.get? k' := by
  obtain ⟨slots⟩ := c
  simp only [get?, erase]
  induction slots with
  | nil => simp
  | cons slot slots ih =>
    obtain ⟨k1, v⟩ := slot
    by_cases hk : k1 = k
    · subst hk
      rw [filter_cons_of_neg (by simp), ih, lookup_cons]
      by_cases hk' : k' = k1
      · rw [if_pos hk', if_pos hk']
      · rw [if_neg hk', if_neg hk', beq_eq_false_iff_ne.mpr hk']
    · rw [filter_cons_of_pos (by simpa using hk), lookup_cons, lookup_cons]
      by_cases hk' : k' = k1
      · subst hk'
        rw [beq_self_eq_true, if_neg hk]
      · rw [beq_eq_false_iff_ne.mpr hk']
        exact ih

/-- A cache in which each key has one slot, and the contents that it shows. -/
structure Shows (c : Cache) (m : PartialMap) : Prop where
  nodup : c.keys.Nodup
  get?_eq : ∀ k, c.get? k = m k

namespace Shows

theorem stored_eq (h : Shows c m) :
    {k | (m k).isSome} = ((c.slots.filter (·.2.isSome)).map (·.1)).toFinset := by
  ext k
  simp only [Set.mem_ofPred_eq, ← h.get?_eq, coe_toFinset, mem_map, mem_filter]
  constructor
  · intro hk
    obtain ⟨content, hget⟩ := Option.isSome_iff_exists.mp hk
    have hlookup : c.slots.lookup k = some (some content) := Option.join_eq_some_iff.mp hget
    obtain ⟨front, back, hslots, -⟩ := lookup_eq_some_iff.mp hlookup
    exact ⟨(k, some content), ⟨by rw [hslots]; simp, rfl⟩, rfl⟩
  · rintro ⟨⟨k, v⟩, ⟨hmem, hv⟩, rfl⟩
    rw [get?, lookup_of_mem h.nodup hmem]
    exact hv

theorem size_eq (h : Shows c m) : c.size = {k | (m k).isSome}.ncard := by
  rw [h.stored_eq, Set.ncard_coe_finset, toFinset_card_of_nodup, length_map, size]
  exact h.nodup.sublist (filter_sublist.map _)

theorem isEmpty_iff (h : Shows c m) : c.isEmpty = true ↔ ∀ k, m k = none := by
  have hfinite : {k | (m k).isSome}.Finite := h.stored_eq ▸ Finset.finite_toSet _
  rw [isEmpty, beq_iff_eq, h.size_eq, Set.ncard_eq_zero hfinite, Set.eq_empty_iff_forall_notMem]
  exact forall_congr' fun k => Option.not_isSome_iff_eq_none

/-- One request: the answers are the same, and so is what becomes of the world. -/
theorem serve (h : Shows c m) (r : Request ω ε) (w : ω) :
    ((c.serve r).run w).1.1 = ((PartialMap.serve m r).run w).1.1 ∧
      ((c.serve r).run w).2 = ((PartialMap.serve m r).run w).2 ∧
      Shows ((c.serve r).run w).1.2 ((PartialMap.serve m r).run w).1.2 := by
  cases r with
  | fetch k compute =>
    have hreserve : (c.reserve k).keys.Nodup := by
      rw [reserve]
      split_ifs with hk
      · exact h.nodup
      · exact nodup_cons.mpr ⟨fun hmem => hk (mem_keys_iff.mp hmem), h.nodup⟩
    simp only [Cache.serve, PartialMap.serve, fetchM, h.get?_eq k]
    cases hm : m k with
    | some content => exact ⟨rfl, rfl, h⟩
    | none =>
      simp only [bind_assoc, StateT.run_bind]
      obtain ⟨result, w'⟩ := compute.run w
      cases result with
      | error e => exact ⟨rfl, rfl, hreserve, fun k' => get?_reserve.trans (h.get?_eq k')⟩
      | ok content =>
        refine ⟨rfl, rfl, (keys_fill (c := c.reserve k)).symm ▸ hreserve, fun k' => ?_⟩
        show ((c.reserve k).fill k content).get? k' = Function.update m k (some content) k'
        rw [get?_fill (mem_keys_reserve.mpr (.inr rfl)), get?_reserve, h.get?_eq]
        exact (Function.update_apply m k (some content) k').symm
  | get k => exact ⟨congrArg Answer.found (h.get?_eq k), rfl, h⟩
  | invalidate k =>
    refine ⟨rfl, rfl, h.nodup.sublist (filter_sublist.map _), fun k' => ?_⟩
    show (c.erase k).get? k' = Function.update m k none k'
    rw [get?_erase, h.get?_eq, Function.update_apply]
  | clear => exact ⟨rfl, rfl, nodup_nil, fun _ => rfl⟩

theorem serveAll (h : Shows c m) (rs : List (Request ω ε)) (w : ω) :
    ((Cache.serveAll Cache.serve c rs).run w).1.1 =
        ((Cache.serveAll PartialMap.serve m rs).run w).1.1 ∧
      ((Cache.serveAll Cache.serve c rs).run w).2 =
        ((Cache.serveAll PartialMap.serve m rs).run w).2 ∧
      Shows ((Cache.serveAll Cache.serve c rs).run w).1.2
        ((Cache.serveAll PartialMap.serve m rs).run w).1.2 := by
  induction rs generalizing c m w with
  | nil => exact ⟨rfl, rfl, h⟩
  | cons r rs ih =>
    obtain ⟨hanswer, hworld, hnext⟩ := h.serve r w
    obtain ⟨hanswers, hworlds, hlast⟩ := ih hnext ((c.serve r).run w).2
    rw [hworld] at hanswers hworlds hlast
    simp only [run_serveAll_cons, hworld]
    exact ⟨congrArg₂ _ hanswer hanswers, hworlds, hlast⟩

end Shows

theorem PartialMap.serve_of_some {r : Request ω ε} (h : m k = some content) (hr : r.Spares k)
    (w : ω) : ((PartialMap.serve m r).run w).1.2 k = some content := by
  cases r with
  | fetch k' compute =>
    rw [PartialMap.serve]
    cases hm : m k' with
    | some content' => exact h
    | none =>
      have hne : k ≠ k' := by
        rintro rfl
        rw [h] at hm
        cases hm
      simp only [StateT.run_bind]
      obtain ⟨result, w'⟩ := compute.run w
      cases result with
      | error e => exact h
      | ok content' => exact (Function.update_of_ne hne _ _).trans h
  | get k' => exact h
  | invalidate k' => exact (Function.update_of_ne (Ne.symm hr) _ _).trans h
  | clear => exact hr.elim

theorem PartialMap.serveAll_of_some {rs : List (Request ω ε)} (h : m k = some content)
    (hrs : ∀ r ∈ rs, r.Spares k) (w : ω) :
    ((serveAll PartialMap.serve m rs).run w).1.2 k = some content := by
  induction rs generalizing m w with
  | nil => exact h
  | cons r rs ih =>
    obtain ⟨hr, hrs⟩ := forall_mem_cons.mp hrs
    exact ih (serve_of_some h hr w) hrs _

/-- **A cache is a partial map.** It answers all requests as the map does, runs the same computations,
and has as many contents. What is stored is what all later requests see, until the key is invalidated:
asked for the key, the cache gives the content and leaves the world as it is, whatever the computation
would do to it. -/
theorem answers_of_map (rs later : List (Request ω ε)) (w : ω) :
    ((serveAll serve {} rs).run w).1.1 = ((serveAll PartialMap.serve (fun _ => none) rs).run w).1.1 ∧
    ((serveAll serve {} rs).run w).2 = ((serveAll PartialMap.serve (fun _ => none) rs).run w).2 ∧
    ((serveAll serve {} rs).run w).1.2.size =
      {k | (((serveAll PartialMap.serve (fun _ => none) rs).run w).1.2 k).isSome}.ncard ∧
    (((serveAll serve {} rs).run w).1.2.isEmpty = true ↔
      ∀ k, ((serveAll PartialMap.serve (fun _ => none) rs).run w).1.2 k = none) ∧
    ∀ k content, ((serveAll serve {} rs).run w).1.2.get? k = some content →
      (∀ r ∈ later, r.Spares k) →
      ((serveAll serve {} (rs ++ later)).run w).1.2.get? k = some content ∧
      ∀ (compute : StateM ω (Except ε String)) (w' : ω),
        (((serveAll serve {} (rs ++ later)).run w).1.2.serve (.fetch k compute)).run w' =
          ((.fetched (.ok content), ((serveAll serve {} (rs ++ later)).run w).1.2), w') := by
  have hstart : Shows {} fun _ => none := ⟨nodup_nil, fun _ => rfl⟩
  obtain ⟨hanswers, hworld, hshows⟩ := hstart.serveAll rs w
  refine ⟨hanswers, hworld, hshows.size_eq, hshows.isEmpty_iff, fun k content hget hlater => ?_⟩
  have hstored : ((serveAll serve {} (rs ++ later)).run w).1.2.get? k = some content := by
    rw [serveAll_append, (hshows.serveAll later _).2.2.get?_eq]
    exact PartialMap.serveAll_of_some (hshows.get?_eq k ▸ hget) hlater _
  refine ⟨hstored, fun compute w' => ?_⟩
  rw [serve, fetchM, hstored]
  rfl

end Cache

end Stencil
