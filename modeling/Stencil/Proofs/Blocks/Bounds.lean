import Stencil.Proofs.Blocks.Conservation
import Stencil.Proofs.Blocks.Sparing

/-!
# How many branches blocks have

A table that can be built has no block with more than `maxBranches` branches, and a block keeps to the
list of its table at every step (`Staged`). So no branch is made at or above that limit, and **the indices
recorded in a block are in its list and grow** (`branches_in_bounds`).
-/

namespace Stencil

open Document List

variable {κ : Type} [DecidableEq κ] {id : NodeId}

namespace BlockTable

variable {entries l : List (κ × List κ × Kind)} {t t' : BlockTable κ} {rule : BlockRule κ} {key : κ}

omit [DecidableEq κ] in
theorem follow_of_rule {follow : List κ} {kind : Kind} (h : BlockTable.rule follow kind = .ok rule) :
    rule.follow = follow ∧ rule.kind = kind ∧ follow.length ≤ maxBranches := by
  unfold BlockTable.rule at h
  split at h
  case h_1 => cases h
  case h_2 closer hlast =>
    split_ifs at h with hlen
    cases h
    exact ⟨dropLast_append_getLast? closer hlast, rfl, not_lt.mp hlen⟩

/-- All rules of a table are from a list of blocks, and none has too many branches. -/
def IsFrom (t : BlockTable κ) (entries : List (κ × List κ × Kind)) : Prop :=
  ∀ r ∈ t.rules, (r.1, r.2.follow, r.2.kind) ∈ entries ∧ r.2.follow.length ≤ maxBranches

theorem isFrom_of_foldlM (hl : l ⊆ entries) (ht : t.IsFrom entries)
    (h : (l.foldlM (fun t (key, follow, kind) => do return t.insert key (← BlockTable.rule follow kind)) t :
      Except BlockError (BlockTable κ)) = .ok t') : t'.IsFrom entries := by
  induction l generalizing t with
  | nil =>
    cases h
    exact ht
  | cons e l ih =>
    rw [foldlM_cons] at h
    obtain ⟨t1, hinsert, h⟩ := except_bind.mp h
    obtain ⟨r, hr, hinsert⟩ := except_bind.mp hinsert
    cases hinsert
    obtain ⟨hfollow, hkind, hlen⟩ := follow_of_rule hr
    refine ih (fun x hx => hl (mem_cons_of_mem _ hx)) (forall_mem_append.mpr ⟨fun x hx => ?_, ?_⟩) h
    · exact ht x (mem_filter.mp hx).1
    · refine forall_mem_singleton.mpr ?_
      rw [hfollow, hkind]
      exact ⟨hl mem_cons_self, hlen⟩

theorem follow_of_get? (h : BlockTable.build entries = .ok t) (hget : t.get? key = some rule) :
    (key, rule.follow, rule.kind) ∈ entries ∧ rule.follow.length ≤ maxBranches := by
  have hfrom : t.IsFrom entries := isFrom_of_foldlM (Subset.refl _) (fun _ hr => absurd hr not_mem_nil) h
  obtain ⟨l1, l2, heq, -⟩ := lookup_eq_some_iff.mp hget
  exact hfrom (key, rule) (by simp [heq])

end BlockTable

/-- No node has got a branch at or above the limit. -/
def Document.Bounded (d d' : Document) : Prop :=
  ∀ x, (d'.branches x).length ≤ max (d.branches x).length maxBranches

namespace Document.Bounded

variable {d d' d'' : Document}

theorem refl (d : Document) : d.Bounded d := fun _ => le_max_left _ _

theorem trans (h : d.Bounded d') (h' : d'.Bounded d'') : d.Bounded d'' := fun x =>
  (h' x).trans (max_le (h x) (le_max_right _ _))

theorem modify {f : Node → Node} (h : d.Bounded d')
    (hf : (f (d'.node id)).branches.length ≤ max (d.branches id).length maxBranches) :
    d.Bounded (d'.modify id f) := by
  intro x
  rcases node_modify_cases d' id f x with heq | ⟨-, rfl, heq⟩ <;> rw [branches, heq]
  · exact h x
  · exact hf

theorem setBranch {i : Nat} (h : d.Bounded d') (hi : i < (d.branches id).length) (b : Branch) :
    d.Bounded (d'.setBranch id i b) := by
  refine h.modify ?_
  rw [Node.length_setBranch]
  exact max_le (h id) (Nat.succ_le_of_lt (hi.trans_le (le_max_left _ _)))

end Document.Bounded

namespace Nesting

variable {n : Nesting κ} {nested : NodeId → Edit Unit} {p p' : Progress κ} {d d' : Document} {b : Branch}

/-- Each open block is one of a rule of the table. -/
def Staged (t : BlockTable κ) (p : Progress κ) : Prop :=
  ∀ b ∈ p.blocks, ∃ key rule, t.get? key = some rule ∧ b.Follows rule

theorem Staged.put {t : BlockTable κ} (h : Staged t p) (f : Fragment) : Staged t (p.put f) := by
  rw [Progress.put]
  split
  case h_1 b outer hb =>
    rw [Staged, hb] at h
    exact forall_mem_cons.mpr (forall_mem_cons.mp h)
  case h_2 => exact h

section

variable (ht : ∀ {key rule}, n.table.get? key = some rule → rule.follow.length ≤ maxBranches)
include ht

section

variable (hn : ∀ id (d : Document), Yields (nested id) d (fun _ d' => d.Bounded d') fun _ d' => d.Bounded d')
include hn

theorem take_bounded (hp : Staged n.table p) (id : NodeId) (d : Document) :
    Yields (n.take nested p id) d (fun p' d' => Staged n.table p' ∧ d.Bounded d')
      fun _ d' => d.Bounded d' := by
  have habsorb : ∀ {b outer} {g : Body → Body}, p.blocks = b :: outer →
      d.Bounded (d.modify b.node (Node.absorb b.branch b.content g)) := fun {b outer g} hblocks => by
    obtain ⟨key, rule, hrule, hfollows⟩ := hp b (hblocks ▸ mem_cons_self)
    refine (Document.Bounded.refl d).modify ?_
    show ((d.node b.node).fill b.branch b.content).branches.length ≤ _
    rw [Node.fill]
    split_ifs
    · exact le_max_left _ _
    · rw [Node.length_setBranch]
      exact max_le_max_left _ (hfollows.lt.trans_le (ht hrule))
  refine ⟨fun p' d' hok => ?_, fun e d' he => (hn id d).error e d' (error_of_take he)⟩
  rcases take_cases hok with ⟨hnested, rfl⟩ | ⟨key, rule, -, hrule, hok⟩ |
    ⟨key, b, outer, -, hblocks, ⟨-, hok⟩ | ⟨next, hstep, hok⟩⟩
  · exact ⟨hp.put _, (hn id d).ok _ _ hnested⟩
  · obtain ⟨rfl, rfl⟩ := enter_eq_ok hok
    refine ⟨forall_mem_cons.mpr ⟨⟨key, rule, hrule, rfl⟩, hp⟩, (Document.Bounded.refl d).modify ?_⟩
    show ((d.node id).setBranch 0 []).branches.length ≤ _
    rw [Node.length_setBranch]
    exact max_le_max_left _ (by decide)
  · obtain ⟨rfl, rfl⟩ := close_eq_ok hok
    refine ⟨Staged.put (fun o ho => hp o ?_) _, habsorb hblocks⟩
    exact hblocks ▸ mem_cons_of_mem _ ho
  · obtain ⟨rfl, rfl⟩ := separate_eq_ok hok
    rw [Staged, hblocks] at hp
    obtain ⟨⟨key', rule, hrule, hfollows⟩, houter⟩ := forall_mem_cons.mp hp
    have hnext : next.Follows rule := hfollows.step hstep
    exact ⟨forall_mem_cons.mpr ⟨⟨key', rule, hrule, hnext⟩, houter⟩, habsorb hblocks⟩

theorem foldlM_bounded (hp : Staged n.table p) (b : Branch) (d : Document) :
    Yields (b.foldlM (n.takeFragment nested) p) d (fun p' d' => Staged n.table p' ∧ d.Bounded d')
      fun _ d' => d.Bounded d' := by
  induction b generalizing p d with
  | nil => exact .pure ⟨hp, .refl d⟩
  | cons f b ih =>
    rw [foldlM_cons]
    cases f with
    | text s => exact ih (hp.put _) d
    | node id =>
      refine (take_bounded ht hn hp id d).bind fun p' d1 h1 => (ih h1.1 d1).mono (fun _ _ h2 => ?_) ?_
      · exact ⟨h2.1, h1.2.trans h2.2⟩
      · exact fun _ _ h2 => h1.2.trans h2

end

omit ht in
theorem staged_start (t : BlockTable κ) : Staged t {} := fun _ h => absurd h not_mem_nil

theorem nestNode_bounded (levels : Nat) (id : NodeId) (d : Document) :
    Yields (n.nestNode levels id) d (fun _ d' => d.Bounded d') fun _ d' => d.Bounded d' := by
  induction levels generalizing id d with
  | zero => exact .pure (.refl d)
  | succ levels ih =>
    -- a branch that is put back is one of those the node had at the start
    refine mapBranches_yields (P := fun _ d' => d.Bounded d') (.refl d) fun i hi d1 h1 => ?_
    refine Yields.bind ((foldlM_bounded ht ih (staged_start _) _ _).mono
      (Q := fun _ d2 => d.Bounded d2) ?_ ?_) fun p d2 h2 => ?_
    · exact fun _ _ h2 => (h1.setBranch hi []).trans h2.2
    · exact fun _ _ h2 => (h1.setBranch hi []).trans h2
    · split
      · exact .bind_ok rfl (.throw h2)
      · exact .pure (h2.setBranch hi _)

end

/-- **Branch indices stay in bounds.** Every rule of a table is that of an entry, with no more markers than
there can be branches. While a list is nested, the index of each open block and the markers it waits for
make up the list of its rule, and the next marker leads to a later branch that is also in the list.
Whichever way nesting ends, no branch is made at or above the limit, and in a tree the indices recorded in
a node, behind those it had, grow, from 1 on, and are below the length of the list. -/
theorem branches_in_bounds {n : Nesting κ} {entries : List (κ × List κ × Kind)}
    (htable : BlockTable.build entries = .ok n.table) :
    (∀ key rule, n.table.get? key = some rule →
      (key, rule.follow, rule.kind) ∈ entries ∧ rule.follow.length ≤ maxBranches) ∧
    (∀ levels (done : Branch) (d : Document) p e,
      done.foldlM (n.takeFragment (n.nestNode levels)) {} d = .ok p e →
        ∀ b ∈ p.blocks, b.follow ≠ [] ∧ ∃ key rule, n.table.get? key = some rule ∧
          b.follow = rule.follow.drop b.branch ∧ b.branch + b.follow.length = rule.follow.length ∧
          ∀ key next, b.step key = .separates next →
            b.branch < next.branch ∧ next.branch < rule.follow.length) ∧
    (∀ id (d : Document), d.Bounded (after (n.nest id) d)) ∧
    ∀ top (d : Document), d.UniqueOwner top →
      ∀ x, n.table.Marked (d.node x) ((after (n.nest top) d).node x) := by
  have hfollow : ∀ {key rule}, n.table.get? key = some rule → _ := fun hget =>
    BlockTable.follow_of_get? htable hget
  have hlen : ∀ {key rule}, n.table.get? key = some rule → _ := fun hget => (hfollow hget).2
  refine ⟨fun key rule => hfollow, fun levels done d p e hok b hb => ⟨by simp [OpenBlock.follow], ?_⟩,
    fun id d => ?_, fun top d hd => ?_⟩
  · obtain ⟨hp, -⟩ := (foldlM_bounded hlen (nestNode_bounded hlen levels) (staged_start _) done d).ok p e hok
    obtain ⟨key, rule, hrule, hfollows⟩ := hp b hb
    exact ⟨key, rule, hrule, hfollows, hfollows.length_eq, fun key next hstep =>
      ⟨(step_separates hstep).2.1, (hfollows.step hstep).lt⟩⟩
  · exact (nestNode_bounded hlen d.size id d).after
  · have hseen : n.Seen d (n.key? d) := fun x => ⟨d, .refl _ _, rfl⟩
    have hy := nestNode_yields hd d.size .refl rfl (.refl d [top]) (fun _ => .inl rfl) hseen
    refine (hy.mono (fun _ d' hQ => ?_) fun _ _ hE => hE.1).after
    obtain ⟨_, -, hnested⟩ := hQ
    exact hnested.marked

/-- The condition around another one records its alternate as the branch 1. -/
theorem branches_in_bounds_conditions : ∃ d',
    conditions.nest 0 (tagPage ["if", "if", "endif", "else", "endif"]) = .ok () d' ∧
    (d'.node 1).body.markers = [(1, 4)] ∧
    conditions.table.Marked ((tagPage ["if", "if", "endif", "else", "endif"]).node 1) (d'.node 1) := by
  have hd : (tagPage ["if", "if", "endif", "else", "endif"]).UniqueOwner 0 :=
    .of_slots (by decide) (by decide) (by decide) (by decide)
  have hnest : succeeds (conditions.nest 0) (tagPage ["if", "if", "endif", "else", "endif"])
      (fun _ d' => decide ((d'.node 1).body.markers = [(1, 4)])) = true := by
    decide +kernel
  obtain ⟨_, d', hok, hmarkers⟩ := of_succeeds hnest
  have htable : BlockTable.build [("if", ["else", "endif"], .ifBlock)] = .ok conditions.table := rfl
  exact ⟨d', hok, of_decide_eq_true hmarkers, after_of_ok hok ▸ (branches_in_bounds htable).2.2.2 0 _ hd 1⟩

end Nesting

end Stencil
