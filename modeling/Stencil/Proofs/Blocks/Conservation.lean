import Stencil.Proofs.Blocks.Tracking

/-!
# Nesting loses nothing

**The main theorem** (`nest_outcome`). If nesting succeeds, no list ends with an open block, and every
list unfolds to what it was. If it fails, the error names the outermost block left open by the first
list that leaves one open.
-/

namespace Stencil

open Document List

variable {c : NodeId}

namespace Nesting

variable {κ : Type} [DecidableEq κ] {n : Nesting κ} {d e e0 e' : Document} {top : NodeId}
  {levels : Nat} {key key0 key' : NodeId → Option κ}

def firsts (d : Document) (o : NodeId) (i : Nat) : List NodeId :=
  ((d.branches o).take i).flatMap Branch.nodes

/-- The first branches of a node have been nested. -/
structure Reworked (n : Nesting κ) (d e0 : Document) (top : NodeId) (levels : Nat)
    (key : NodeId → Option κ) (o : NodeId) (i : Nat) (e : Document) : Prop where
  size_eq : e.size = e0.size
  node_eq : ∀ x ≠ o, (∀ c ∈ firsts d o i, ¬ Reaches d.refs c x) → e.node x = e0.node x
  payload_eq : (e.node o).payload = (e0.node o).payload
  length_eq : (e.branches o).length = (d.branches o).length
  branch_eq : ∀ j ≥ i, e.branch o j = d.branch o j
  marked : n.table.MarksAll d e
  closed : AllClosed n.table key
    (((d.branches o).take i).flatMap fun b => listsIn d n.table key levels b.nodes)
  unfolds : n.Tidy d top → ∀ j < i, d.Unfolds e (Branch.items (e.branch o j)) (d.branch o j).items
  unfolded : n.Tidy d top → ∀ c ∈ firsts d o i, ∀ q, Reaches d.refs c q → d.Unfolded e q

section Branches

variable {o : NodeId} {i j : Nat}

theorem firsts_succ (hi : i < (d.branches o).length) :
    firsts d o (i + 1) = firsts d o i ++ (d.branch o i).nodes := by
  rw [firsts, take_succ_eq_append_getElem hi, flatMap_append, flatMap_singleton, ← branch_getElem hi]
  rfl

theorem firsts_sublist (hi : i < (d.branches o).length) :
    (firsts d o i ++ (d.branch o i).nodes).Sublist (d.kids o) := by
  rw [← firsts_succ hi, firsts, kids]
  exact (take_sublist _ _).flatMap _

theorem mem_firsts_of_lt (hj : j < i) (hi : i < (d.branches o).length)
    (hc : c ∈ (d.branch o j).nodes) : c ∈ firsts d o i := by
  refine mem_flatMap.mpr ⟨d.branch o j, ?_, hc⟩
  rw [branch_getElem (lt_trans hj hi)]
  exact mem_take_iff_getElem.mpr ⟨j, by omega, rfl⟩

section

variable (hd : d.UniqueOwner top) (ho : Reaches d.refs top o) (hi : i < (d.branches o).length)
include hd ho hi

theorem firsts_apart {c' x : NodeId} (hc : c ∈ firsts d o i)
    (hc' : c' ∈ (d.branch o i).nodes) (hx : Reaches d.refs c x) : ¬ Reaches d.refs c' x := by
  have hsub := firsts_sublist hi
  have hrefs : ∀ {c}, c ∈ firsts d o i ++ (d.branch o i).nodes → c ∈ d.refs o := fun hc =>
    d.kids_sub o (hsub.subset hc)
  have hne := (nodup_append.mp ((hd.kids_nodup ho).sublist hsub)).2.2 c hc c' hc'
  exact hd.apart ho (hrefs (mem_append_left _ hc)) (hrefs (mem_append_right _ hc')) hne hx

theorem closed_rekey (hkeys : n.Rekeyed d key key' (d.branch o i).nodes)
    (h : AllClosed n.table key
      (((d.branches o).take i).flatMap fun b => listsIn d n.table key levels b.nodes)) :
    AllClosed n.table key'
      (((d.branches o).take i).flatMap fun b => listsIn d n.table key' levels b.nodes) := by
  have hsame : ∀ c ∈ firsts d o i, ∀ x, Reaches d.refs c x → key' x = key x := fun c hc x hx =>
    hkeys.key_eq x fun c' hc' => firsts_apart hd ho hi hc hc' hx
  have hfirst : ∀ b ∈ (d.branches o).take i, ∀ c ∈ b.nodes, c ∈ firsts d o i := fun b hb c hc =>
    mem_flatMap.mpr ⟨b, hb, hc⟩
  have hlists : ∀ b ∈ (d.branches o).take i,
      listsIn d n.table key' levels b.nodes = listsIn d n.table key levels b.nodes := fun b hb => by
    rw [listsIn, listsIn, scan_congr fun x hx => hsame x (hfirst b hb x hx) x .refl]
    refine congrArg (· ++ _) (flatMap_congr fun c hc => lists_congr fun c' hc' x hx => ?_)
    exact hsame c (hfirst b hb c (mem_kept hc)) x
      ((Reaches.child (d.kids_sub c hc')).trans hx)
  rw [flatMap_congr hlists]
  refine h.congr fun l hl x hx => ?_
  obtain ⟨b, hb, hl⟩ := mem_flatMap.mp hl
  rcases mem_append.mp hl with hl | hl
  · obtain ⟨c, hc, hl⟩ := mem_flatMap.mp hl
    obtain ⟨c', hc', hr⟩ := reaches_of_mem_lists hl hx
    exact hsame c (hfirst b hb c (mem_kept hc)) x
      ((Reaches.child (d.kids_sub c hc')).trans hr)
  · rw [mem_singleton.mp hl] at hx
    exact hsame x (hfirst b hb x hx) x .refl

theorem Reworked.frame (hf : d.Frame e0 [o]) (h : Reworked n d e0 top levels key o i e) :
    d.Frame (e.setBranch o i []) (d.branch o i).nodes := by
  refine ⟨by rw [setBranch, size_modify, h.size_eq]; exact hf.size_le,
    fun c hc x hx => ?_⟩
  have hc' : c ∈ d.refs o := refs_of_mem hc
  have hne : x ≠ o := by
    rintro rfl
    exact hd.not_reaches_mem ho hc' hx
  rw [setBranch, modify_ne hne, h.node_eq x hne fun c1 hc1 hx1 =>
    firsts_apart hd ho hi hc1 hc hx1 hx]
  exact hf.node_eq o mem_cons_self x ((Reaches.child hc').trans hx)

theorem Reworked.step {b' : Branch} (hsize : e0.size = d.size)
    (h : Reworked n d e0 top levels key o i e) (hkeys : n.Rekeyed d key key' (d.branch o i).nodes)
    (hl : NestedList n d (e.setBranch o i []) top levels key' (d.branch o i) b' e') :
    Reworked n d e0 top levels key' o (i + 1) (e'.setBranch o i b') := by
  have hup : ∀ c ∈ (d.branch o i).nodes, ¬ Reaches d.refs c o := fun c hc =>
    hd.not_reaches_mem ho (refs_of_mem hc)
  have hlt : o < e.size := by rw [h.size_eq, hsize]; exact hd.lt_size ho
  have hi' : i < (e.branches o).length := h.length_eq ▸ hi
  have hnode1 := node_setBranch (b := []) hlt hi'
  have hnode2 : e'.node o = { e.node o with branches := (e.branches o).set i [] } :=
    (hl.within.node_eq o hup).trans hnode1
  have hlt' : o < e'.size := by
    rw [hl.within.size_eq, setBranch, size_modify]
    exact hlt
  have hnode3 : (e'.setBranch o i b').node o = { e.node o with branches := (e.branches o).set i b' } := by
    rw [node_setBranch hlt' (by rw [branches, hnode2, length_set]; exact hi'),
      branches, hnode2, set_set]
  have hothers : ∀ x ≠ o, (∀ c ∈ (d.branch o i).nodes, ¬ Reaches d.refs c x) →
      (e'.setBranch o i b').node x = e.node x := fun x hx hc => by
    rw [setBranch, modify_ne hx, hl.within.node_eq x hc, setBranch, modify_ne hx]
  have hbranch : ∀ j, (e'.setBranch o i b').branch o j = if j = i then b' else e.branch o j := by
    intro j
    simp only [branch, Node.branch, hnode3, getD_eq_getElem?_getD, List.getElem?_set]
    by_cases hj : j = i
    · subst hj
      simp [hi']
    · rw [if_neg (Ne.symm hj), if_neg hj]
      rfl
  have hne : ∀ {c x}, c ∈ d.refs o → Reaches d.refs c x → x ≠ o := fun hc hx heq =>
    hd.not_reaches_mem ho hc (heq ▸ hx)
  -- below the first branches nothing changes in this step
  have hfirst : ∀ c ∈ firsts d o i, ∀ x, Reaches d.refs c x →
      (e'.setBranch o i b').node x = e.node x := fun c hc x hx =>
    hothers x (hne (d.kids_sub o ((firsts_sublist hi).subset (mem_append_left _ hc))) hx)
      fun c' hc' => firsts_apart hd ho hi hc hc' hx
  have hthis : ∀ c ∈ (d.branch o i).nodes, ∀ x, Reaches d.refs c x →
      (e'.setBranch o i b').node x = e'.node x := fun c hc x hx =>
    modify_ne (hne (refs_of_mem hc) hx)
  refine ⟨?_, fun x hx hc => ?_, ?_, ?_, fun j hj => ?_, hl.marked.setBranch o i b', ?_, fun ht j hj => ?_,
    fun ht => ?_⟩
  · rw [setBranch, size_modify, hl.within.size_eq, setBranch, size_modify, h.size_eq]
  · rw [firsts_succ hi, forall_mem_append] at hc
    rw [hothers x hx hc.2, h.node_eq x hx hc.1]
  · rw [hnode3]
    exact h.payload_eq
  · rw [branches, hnode3, length_set]
    exact h.length_eq
  · rw [hbranch, if_neg (by omega)]
    exact h.branch_eq j (by omega)
  · rw [take_succ_eq_append_getElem hi, flatMap_append, flatMap_singleton,
      ← branch_getElem hi, allClosed_append]
    exact ⟨closed_rekey hd ho hi hkeys h.closed, hl.closed⟩
  · rw [hbranch]
    by_cases hji : j = i
    · subst hji
      rw [if_pos rfl]
      exact (hl.unfolds ht).congr fun x hx => hthis x (Branch.mem_items.mp hx) x .refl
    · rw [if_neg hji]
      refine (h.unfolds ht j (by omega)).congr fun x hx => hfirst x ?_ x .refl
      exact mem_firsts_of_lt (by omega) hi (Branch.mem_items.mp hx)
  · rw [firsts_succ hi, forall_mem_append]
    refine ⟨fun c hc q hq => ?_, fun c hc q hq => ?_⟩
    · exact (h.unfolded ht c hc q hq).congr (formerBranches_congr (hfirst c hc q hq))
        fun c' hc' => hfirst c hc c' (hq.tail (d.kids_sub q hc'))
    · exact (hl.unfolded ht c hc q hq).congr (formerBranches_congr (hthis c hc q hq))
        fun c' hc' => hthis c hc c' (hq.tail (d.kids_sub q hc'))

end

theorem Reworked.nested (hd : d.UniqueOwner top) (ho : Reaches d.refs top o) (hf : d.Frame e0 [o])
    (h : Reworked n d e0 top levels key o (d.branches o).length e) :
    Nested n d top (levels + 1) key o e0 e := by
  have hkids : firsts d o (d.branches o).length = d.kids o := by
    rw [firsts, take_length]
    rfl
  have hpayload : (e.node o).payload = (d.node o).payload := by
    rw [h.payload_eq, hf.node_head]
  -- what is below the markers of an old block has not been touched
  have hcases : ∀ q, Reaches d.refs o q →
      q = o ∨ (∃ c ∈ firsts d o (d.branches o).length, Reaches d.refs c q) ∨ d.Frame e [q] := by
    intro q hq
    rcases hq.eq_or_child with rfl | ⟨c, hc, hcq⟩
    · exact .inl rfl
    · by_cases hkid : ∃ c' ∈ firsts d o (d.branches o).length, Reaches d.refs c' q
      · exact .inr (.inl hkid)
      · refine .inr (.inr ⟨by rw [h.size_eq]; exact hf.size_le, fun x hx z hz => ?_⟩)
        rw [mem_singleton.mp hx] at hz
        have hne : z ≠ o := by
          rintro rfl
          exact hd.not_reaches_mem ho hc (hcq.trans hz)
        rw [h.node_eq z hne fun c' hc' hr => ?_]
        · exact hf.node_eq o mem_cons_self z (hq.trans hz)
        · have hcc : c = c' := by
            by_contra hne
            exact hd.apart ho hc (d.kids_sub o (hkids ▸ hc')) hne (hcq.trans hz) hr
          exact hkid ⟨c, hcc ▸ hc', hcq⟩
  refine ⟨⟨h.size_eq, fun x hx => ?_⟩, h.payload_eq, h.marked, ?_, fun ht q hq => ?_⟩
  · rw [forall_mem_singleton] at hx
    refine h.node_eq x (fun heq => hx (heq ▸ .refl)) fun c hc hr => hx ?_
    exact (Reaches.child (d.kids_sub o (hkids ▸ hc))).trans hr
  · have hclosed := h.closed
    rwa [take_length] at hclosed
  · rcases hcases q hq with rfl | ⟨c, hc, hcq⟩ | hframe
    · rw [Document.Unfolded, formerBranches,
        if_neg (not_made_of_payload_eq hpayload), List.forall₂_iff_get]
      refine ⟨h.length_eq.symm, fun j hj hj' l => ?_⟩
      rw [get_eq_getElem, get_eq_getElem, ← branch_getElem hj, ← branch_getElem hj']
      exact (h.unfolds ht j hj).iff
    · exact h.unfolded ht c hc q hcq
    · exact .of_frame hframe

end Branches

theorem nestNode_yields (hd : d.UniqueOwner top) (levels : Nat) :
    NestsBelow n d top levels (n.nestNode levels) := by
  induction levels with
  | zero =>
    intro o e key0 ho hsize hf hmarked hseen
    refine .pure ⟨key0, .refl hseen _, .refl _ _ _, rfl, hmarked, fun l hl => absurd hl not_mem_nil,
      fun _ q hq => .of_frame ⟨hf.size_le, fun x hx z hz => ?_⟩⟩
    exact hf.node_eq o mem_cons_self z (hq.trans (mem_singleton.mp hx ▸ hz))
  | succ levels ih =>
    intro o e0 key0 ho hsize hf hmarked hseen
    have hnode : e0.node o = d.node o := hf.node_head
    have hbs : e0.branches o = d.branches o := by rw [branches, hnode]; rfl
    have hstart : Reworked n d e0 top levels key0 o 0 e0 :=
      ⟨rfl, fun _ _ _ => rfl, rfl, by rw [hbs], fun j _ => by rw [branch, hnode]; rfl,
        hmarked, fun l hl => absurd hl not_mem_nil, fun _ j hj => absurd hj (Nat.not_lt_zero j),
        fun _ c hc => absurd hc not_mem_nil⟩
    refine (mapBranches_yields (P := fun i e => ∃ key, n.Rekeyed d key0 key (firsts d o i) ∧
      Reworked n d e0 top levels key o i e) ⟨key0, .refl hseen _, hstart⟩ fun i hi e hP => ?_).mono
        (fun _ e hP => ?_) fun _ _ hE => hE
    · rw [hbs] at hi
      obtain ⟨key, hkeys, h⟩ := hP
      rw [h.branch_eq i (le_refl i)]
      have hmem := branch_mem hi
      have hsize' : (e.setBranch o i []).size = d.size := by
        rw [setBranch, size_modify, h.size_eq, hsize]
      refine (nestBranch_yields ih hd ho hmem hsize' (h.frame hd ho hi hf) (h.marked.setBranch o i [])
        hkeys.seen).mono (fun b' e' hQ => ?_) fun err e' hE => ?_
      · obtain ⟨key', hkeys', hl⟩ := hQ
        refine ⟨key', ?_, h.step hd ho hi hsize hkeys' hl⟩
        rw [firsts_succ hi]
        exact (hkeys.mono fun c hc => ⟨c, mem_append_left _ hc, .refl⟩).trans
          (hkeys'.mono fun c hc => ⟨c, mem_append_right _ hc, .refl⟩)
      · obtain ⟨hmarked', key', hkeys', hreports⟩ := hE
        have hsub := firsts_sublist hi
        refine ⟨hmarked', key', (hkeys.mono fun c hc => ⟨c, ?_, .refl⟩).trans
          (hkeys'.mono fun c hc => ⟨c, ?_, .refl⟩), ?_⟩
        · exact hsub.subset (mem_append_left _ hc)
        · exact hsub.subset (mem_append_right _ hc)
        · rw [lists, ← take_append_drop i (d.branches o), flatMap_append,
            drop_eq_getElem_cons hi, flatMap_cons, ← branch_getElem hi]
          exact hreports.append (closed_rekey hd ho hi hkeys' h.closed) _
    · rw [hbs] at hP
      obtain ⟨key, hkeys, h⟩ := hP
      refine ⟨key, hkeys.mono fun c hc => ⟨c, ?_, .refl⟩, h.nested hd ho hf⟩
      rwa [firsts, take_length] at hc

/-- Nesting loses, duplicates and reorders nothing, and an error names the outermost block that is
left open in the first list that leaves one open. -/
theorem nest_outcome (n : Nesting κ) (hd : d.UniqueOwner top) :
    ∃ key : NodeId → Option κ, n.Seen d key ∧
      (∀ d', n.nest top d = .ok () d' →
        (∀ levels ≥ d.size, AllClosed n.table key (lists d n.table key levels top)) ∧
        (n.Tidy d top → ∀ x, Reaches d.refs top x → d.Unfolded d' x)) ∧
      ∀ e d', n.nest top d = .error e d' →
        ∀ levels ≥ d.size, Reports d n.table key (lists d n.table key levels top) e := by
  have hseen : n.Seen d (n.key? d) := fun x => ⟨d, .refl _ _, rfl⟩
  have hy := nestNode_yields (n := n) hd d.size .refl rfl (.refl d [top]) (fun _ => .inl rfl) hseen
  have hnest : n.nest top d = n.nestNode d.size top d := rfl
  rw [hnest]
  cases hr : n.nestNode d.size top d with
  | ok u d' =>
    obtain ⟨key, hkeys, hnested⟩ := hy.ok u d' hr
    refine ⟨key, hkeys.seen, fun d1 h => ?_, fun e d1 h => by cases h⟩
    cases h
    refine ⟨fun levels hle => ?_, hnested.unfolded⟩
    rw [lists_of_shallow hd.shallow hle]
    exact hnested.closed
  | error e d' =>
    obtain ⟨-, key, hkeys, hreports⟩ := hy.error e d' hr
    refine ⟨key, hkeys.seen, fun d1 h => (by cases h), fun e1 d1 h levels hle => ?_⟩
    cases h
    rw [lists_of_shallow hd.shallow hle]
    exact hreports

/-- Conditions with an alternate, with markers whose keys are their texts. -/
def conditions : Nesting String where
  table := ⟨[("if", { separators := ["else"], closer := "endif", kind := .ifBlock })]⟩
  eligible := [.tag]
  classify d id := some (d.ownText id)

/-- A document of tags with the given texts, and text behind each of them. -/
def tagPage (tags : List String) : Document :=
  let place := Place.startOf "p"
  ⟨⟨{ kind := .root, place, branches := [tags.zipIdx.flatMap fun t => [.node (t.2 + 1), .text "x"]] } ::
    tags.map fun t => { kind := .tag, place, branches := [[.text t]] }⟩⟩

/-- A condition inside another one is folded and can be unfolded; of two conditions left open, the
outermost is reported. -/
theorem nest_outcome_conditions :
    BlockTable.build [("if", ["else", "endif"], .ifBlock)] = .ok conditions.table ∧
    (∃ d', conditions.nest 0 (tagPage ["if", "if", "endif", "else", "endif"]) = .ok () d' ∧
      (tagPage ["if", "if", "endif", "else", "endif"]).Made d' 1 ∧
      (tagPage ["if", "if", "endif", "else", "endif"]).Unfolded d' 0) ∧
    ∃ key e d', conditions.nest 0 (tagPage ["if", "if", "else"]) = .error e d' ∧
      Reports (tagPage ["if", "if", "else"]) conditions.table key
        (lists (tagPage ["if", "if", "else"]) conditions.table key 4 0) e := by
  refine ⟨rfl, ?_, ?_⟩
  · have hd : (tagPage ["if", "if", "endif", "else", "endif"]).UniqueOwner 0 :=
      .of_slots (by decide) (by decide) (by decide) (by decide)
    have hnest : succeeds (conditions.nest 0) (tagPage ["if", "if", "endif", "else", "endif"])
        (fun _ d' => decide ((tagPage ["if", "if", "endif", "else", "endif"]).Made d' 1)) = true := by
      decide +kernel
    obtain ⟨_, d', hok, hmade⟩ := of_succeeds hnest
    obtain ⟨key, -, hsuccess, -⟩ := nest_outcome conditions hd
    refine ⟨d', hok, of_decide_eq_true hmade, (hsuccess d' hok).2 (fun x hx => ?_) 0 .refl⟩
    have hlt : x < 6 := hd.lt_size hx
    clear hx
    revert x
    decide
  · have hd : (tagPage ["if", "if", "else"]).UniqueOwner 0 :=
      .of_slots (by decide) (by decide) (by decide) (by decide)
    obtain ⟨key, -, -, hfailure⟩ := nest_outcome conditions hd
    have hfails : ∃ e d', conditions.nest 0 (tagPage ["if", "if", "else"]) = .error e d' :=
      ⟨_, _, rfl⟩
    obtain ⟨e, d', he⟩ := hfails
    exact ⟨key, e, d', he, hfailure e d' he 4 (by decide)⟩

end Nesting

end Stencil
