import Stencil.Proofs.Doc.Alike
import Stencil.Proofs.Doc.Walking

/-!
# Removed and dissolved nodes

When the branches below a node are rebuilt, each node in them is kept or removed, or gives way to what
is in its branches. What becomes of a branch follows from the document before (`Spreads`), and **every
node below gets the branches that its own have become** (`UniqueOwner.rebuild_rebuilt`); no other node
changes.

So what is written for a node afterwards is what was written before in a manner that leaves out the
removed nodes, and writes the branches of the dissolved ones only (`Rebuilt.render_eq`).
-/

namespace Stencil

open Branch List Node

variable {d e : Document} {L : List NodeId} {c id x y : NodeId} {m : Manner} {w : NodeId → String}

/-- What becomes of a node when the branch it stands in is rebuilt. -/
inductive Fate where
  | kept
  | removed
  | dissolved
  deriving DecidableEq

namespace Document

variable {e' : Document} {fate : NodeId → Fate} {b l b' l' : List Item}
  {i j k n : Nat}

inductive Spreads (d : Document) (fate : NodeId → Fate) : List Item → List Item → Prop where
  | nil : Spreads d fate [] []
  | char {c : Char} {b l : List Item} : Spreads d fate b l →
      Spreads d fate (.char c :: b) (.char c :: l)
  | kept {x : NodeId} {b l : List Item} : fate x = .kept → Spreads d fate b l →
      Spreads d fate (.node x :: b) (.node x :: l)
  | removed {x : NodeId} {b l : List Item} : fate x = .removed → Spreads d fate b l →
      Spreads d fate (.node x :: b) l
  | dissolved {x : NodeId} {b l inner : List Item} : fate x = .dissolved →
      Spreads d fate (Branch.items (d.branches x).flatten) inner → Spreads d fate b l →
      Spreads d fate (.node x :: b) (inner ++ l)

namespace Spreads

theorem append (h : d.Spreads fate b l) (h' : d.Spreads fate b' l') :
    d.Spreads fate (b ++ b') (l ++ l') := by
  induction h with
  | nil => exact h'
  | char _ ih => exact .char ih
  | kept hx _ ih => exact .kept hx ih
  | removed hx _ ih => exact .removed hx ih
  | dissolved hx hi _ _ ih =>
    rw [cons_append, append_assoc]
    exact .dissolved hx hi ih

theorem self (h : ∀ x, .node x ∈ b → fate x = .kept) : d.Spreads fate b b := by
  induction b with
  | nil => exact .nil
  | cons i b ih =>
    have hb := ih fun x hx => h x (mem_cons_of_mem _ hx)
    cases i with
    | char c => exact .char hb
    | node x => exact .kept (h x mem_cons_self) hb

theorem flatten {bs bs' : List Branch}
    (h : List.Forall₂ (fun b b' => d.Spreads fate (Branch.items b) (Branch.items b')) bs bs') :
    d.Spreads fate (Branch.items bs.flatten) (Branch.items bs'.flatten) := by
  induction h with
  | nil => exact .nil
  | cons hb _ ih =>
    rw [flatten_cons, flatten_cons, items_append, items_append]
    exact hb.append ih

theorem reaches (h : d.Spreads fate b l) (hx : .node x ∈ l) :
    fate x = .kept ∧ ∃ c, .node c ∈ b ∧ Reaches d.kids c x := by
  induction h with
  | nil => cases hx
  | char _ ih =>
    obtain ⟨hk, c, hc, hr⟩ := ih (by simpa using hx)
    exact ⟨hk, c, mem_cons_of_mem _ hc, hr⟩
  | kept hk _ ih =>
    rcases mem_cons.mp hx with heq | hx
    · obtain rfl := Item.node.inj heq
      exact ⟨hk, _, mem_cons_self, .refl⟩
    · obtain ⟨hk, c, hc, hr⟩ := ih hx
      exact ⟨hk, c, mem_cons_of_mem _ hc, hr⟩
  | removed _ _ ih =>
    obtain ⟨hk, c, hc, hr⟩ := ih hx
    exact ⟨hk, c, mem_cons_of_mem _ hc, hr⟩
  | @dissolved y _ _ _ _ _ _ ihi ih =>
    rcases mem_append.mp hx with hx | hx
    · obtain ⟨hk, c, hc, hr⟩ := ihi hx
      have hkid : c ∈ d.kids y := by
        have hc := mem_items.mp hc
        rwa [nodes_flatten] at hc
      exact ⟨hk, y, mem_cons_self, .head hkid hr⟩
    · obtain ⟨hk, c, hc, hr⟩ := ih hx
      exact ⟨hk, c, mem_cons_of_mem _ hc, hr⟩

end Spreads

/-- The branches of a node have become what they were to become. -/
structure Recast (d : Document) (fate : NodeId → Fate) (e : Document) (y : NodeId) : Prop where
  kind_eq : e.kind y = d.kind y
  payload_eq : (e.node y).payload = (d.node y).payload
  spread : List.Forall₂ (fun b b' => d.Spreads fate (Branch.items b) (Branch.items b'))
    (d.branches y) (e.branches y)

theorem Recast.congr (h : d.Recast fate e y) (hnode : e'.node y = e.node y) : d.Recast fate e' y := by
  obtain ⟨hkind, hpayload, hspread⟩ := h
  rw [kind] at hkind
  rw [branches, branches] at hspread
  exact ⟨by rwa [kind, hnode], by rwa [hnode], by rwa [branches, branches, hnode]⟩

/-! ### Rebuilding -/

section Rebuild

variable {change : NodeId → Document → List Fragment × Document}
  {below : NodeId → Document → Document} {top : NodeId}

structure Decides (d : Document) (fate : NodeId → Fate)
    (change : NodeId → Document → List Fragment × Document) : Prop where
  kept : ∀ {e : Document} {x : NodeId}, e.kind x = d.kind x → fate x = .kept →
    change x e = ([.node x], e)
  removed : ∀ {e : Document} {x : NodeId}, e.kind x = d.kind x → fate x = .removed →
    change x e = ([], e)
  dissolved : ∀ {e : Document} {x : NodeId}, e.kind x = d.kind x → fate x = .dissolved →
    change x e = ((e.branches x).flatten, e.clear x)

structure Rebuilt (d : Document) (fate : NodeId → Fate) (id : NodeId) (e e' : Document) : Prop where
  size_eq : e'.size = e.size
  node_eq : ∀ y, ¬ Reaches d.kids id y → e'.node y = e.node y
  recast : ∀ y, Reaches d.kids id y → y = id ∨ fate y ≠ .dissolved → d.Recast fate e' y

/-- What is below a node of the tree is as in `d` and is rebuilt, if it is not too deep. -/
def Rebuilds (d : Document) (fate : NodeId → Fate) (top : NodeId) (n : Nat)
    (below : NodeId → Document → Document) : Prop :=
  ∀ {e : Document} {id : NodeId}, Reaches d.refs top id → e.size = d.size →
    (∀ y, Reaches d.kids id y → e.node y = d.node y) → Shallow d.kids n id →
    d.Rebuilt fate id e (below id e)

structure Replaced (d : Document) (fate : NodeId → Fate) (b : Branch) (built built' : Branch × Document) :
    Prop where
  size_eq : built'.2.size = built.2.size
  node_eq : ∀ y, (∀ c ∈ b.nodes, ¬ Reaches d.kids c y) → built'.2.node y = built.2.node y
  recast : ∀ c ∈ b.nodes, ∀ y, Reaches d.kids c y → fate y ≠ .dissolved → d.Recast fate built'.2 y
  spread : ∃ l, d.Spreads fate b.items l ∧
    Branch.items built'.1.reverse = Branch.items built.1.reverse ++ l

theorem replaced_text (built : Branch × Document) (s : String) :
    d.Replaced fate [.text s] built (replaceFragment change below built (.text s)) where
  size_eq := rfl
  node_eq _ _ := rfl
  recast _ hc := absurd hc not_mem_nil
  spread := by
    refine ⟨s.toList.map .char, ?_, ?_⟩
    · rw [items_cons_text, items_nil, append_nil]
      exact .self fun x hx => by simp at hx
    · rw [replaceFragment, items_stack, items_cons_text, items_nil, append_nil]

theorem replaced_node (hc : d.Decides fate change) (hb : d.Rebuilds fate top n below)
    {built : Branch × Document} (htop : Reaches d.refs top c) (hsize : built.2.size = d.size)
    (hsame : ∀ y, Reaches d.kids c y → built.2.node y = d.node y) (hs : Shallow d.kids n c) :
    d.Replaced fate [.node c] built (replaceFragment change below built (.node c)) := by
  have h := hb htop hsize hsame hs
  have hself := h.recast c .refl (.inl rfl)
  have hit : ∀ fragments : List Fragment,
      Branch.items (fragments.foldl Branch.stack built.1).reverse =
        Branch.items built.1.reverse ++ Branch.items fragments := fun fragments =>
    items_reverse_foldl_stack fragments built.1
  have hmem : ∀ x, x ∈ Branch.nodes [.node c] → x = c := fun x hx => mem_singleton.mp hx
  have hbelow : ∀ y, (∀ x ∈ Branch.nodes [.node c], ¬ Reaches d.kids x y) → ¬ Reaches d.kids c y :=
    fun y hy => hy c (mem_singleton_self c)
  rw [replaceFragment]
  cases hfate : fate c with
  | kept =>
    rw [hc.kept hself.kind_eq hfate]
    exact ⟨h.size_eq, fun y hy => h.node_eq y (hbelow y hy),
      fun x hx y hr hy => h.recast y (hmem x hx ▸ hr) (.inr hy),
      [.node c], .kept hfate .nil, hit [.node c]⟩
  | removed =>
    rw [hc.removed hself.kind_eq hfate]
    exact ⟨h.size_eq, fun y hy => h.node_eq y (hbelow y hy),
      fun x hx y hr hy => h.recast y (hmem x hx ▸ hr) (.inr hy),
      [], .removed hfate .nil, hit []⟩
  | dissolved =>
    rw [hc.dissolved hself.kind_eq hfate]
    have hclear : ∀ y ≠ c, ((below c built.2).clear c).node y = (below c built.2).node y :=
      fun y hy => modify_ne hy
    refine ⟨(size_modify _ _ _).trans h.size_eq, fun y hy => ?_, fun x hx y hr hy => ?_,
      _, .dissolved hfate (.flatten hself.spread) .nil, ?_⟩
    · exact (hclear y fun heq => hbelow y hy (heq ▸ .refl)).trans (h.node_eq y (hbelow y hy))
    · exact (h.recast y (hmem x hx ▸ hr) (.inr hy)).congr (hclear y fun heq => hy (heq ▸ hfate))
    · rw [append_nil]
      exact hit _

theorem replaced_foldl (hu : d.UniqueOwner top) (hid : Reaches d.refs top id)
    (hc : d.Decides fate change) (hb : d.Rebuilds fate top n below) (bs : Branch) (built : Branch × Document) (hsize : built.2.size = d.size)
    (hkids : ∀ c ∈ bs.nodes, c ∈ d.kids id ∧ Shallow d.kids n c) (hnodup : bs.nodes.Nodup)
    (hsame : ∀ c ∈ bs.nodes, ∀ y, Reaches d.kids c y → built.2.node y = d.node y) :
    d.Replaced fate bs built (bs.foldl (replaceFragment change below) built) := by
  induction bs generalizing built with
  | nil => exact ⟨rfl, fun _ _ => rfl, fun _ hc => absurd hc not_mem_nil,
      [], .nil, (append_nil _).symm⟩
  | cons f bs ih =>
    have hstep : d.Replaced fate [f] built (replaceFragment change below built f) := by
      cases f with
      | text s => exact replaced_text built s
      | node c =>
        obtain ⟨hkid, hs⟩ := hkids c mem_cons_self
        exact replaced_node hc hb (hid.tail (d.kids_sub id hkid)) hsize
          (hsame c mem_cons_self) hs
    have hcons : Branch.nodes (f :: bs) = Branch.nodes [f] ++ Branch.nodes bs :=
      nodes_append [f] bs
    rw [hcons] at hkids hnodup hsame
    obtain ⟨-, hnodup', hne⟩ := nodup_append.mp hnodup
    -- what is below a later node is not below this one
    have hapart : ∀ c ∈ Branch.nodes [f], ∀ c' ∈ Branch.nodes bs, ∀ {y}, Reaches d.kids c y →
        ¬ Reaches d.kids c' y := fun c hc c' hc' y =>
      hu.kids_apart hid (hkids c (mem_append_left _ hc)).1 (hkids c' (mem_append_right _ hc')).1
        (hne c hc c' hc')
    have hrest := ih (replaceFragment change below built f) (hstep.size_eq.trans hsize)
      (fun c hc => hkids c (mem_append_right _ hc)) hnodup' fun c hc y hy =>
        (hstep.node_eq y fun c' hc' hy' => hapart c' hc' c hc hy' hy).trans
          (hsame c (mem_append_right _ hc) y hy)
    obtain ⟨l, hl, hit⟩ := hstep.spread
    obtain ⟨l', hl', hit'⟩ := hrest.spread
    refine ⟨hrest.size_eq.trans hstep.size_eq, fun y hy => ?_, fun c hc y hr hy => ?_,
      l ++ l', ?_, ?_⟩
    · rw [hcons] at hy
      exact (hrest.node_eq y fun c hc => hy c (mem_append_right _ hc)).trans
        (hstep.node_eq y fun c hc => hy c (mem_append_left _ hc))
    · rw [hcons] at hc
      rcases mem_append.mp hc with hc | hc
      · exact (hstep.recast c hc y hr hy).congr (hrest.node_eq y fun c' hc' => hapart c hc c' hc' hr)
      · exact hrest.recast c hc y hr hy
    · have hit : Branch.items (f :: bs) = Branch.items [f] ++ Branch.items bs :=
        items_append [f] bs
      rw [hit]
      exact hl.append hl'
    · rw [foldl_cons, hit', hit, append_assoc]

theorem UniqueOwner.branch_unique (hu : d.UniqueOwner top) (hx : Reaches d.refs top x)
    (hi : c ∈ (d.branch x i).nodes) (hj : c ∈ (d.branch x j).nodes) : i = j := by
  have hpair := (nodup_flatMap.mp (hu.kids_nodup hx)).2
  rw [pairwise_iff_getElem] at hpair
  have hi' := lt_of_mem_branch hi
  have hj' := lt_of_mem_branch hj
  rw [branch_getElem hi'] at hi
  rw [branch_getElem hj'] at hj
  rcases Nat.lt_trichotomy i j with hlt | heq | hlt
  · exact absurd hj (hpair i j hi' hj' hlt hi)
  · exact heq
  · exact absurd hi (hpair j i hj' hi' hlt hj)

/-- The first `k` branches of a node have been rebuilt. -/
structure Partway (d : Document) (fate : NodeId → Fate) (id : NodeId) (k : Nat) (e e' : Document) :
    Prop where
  size_eq : e'.size = d.size
  node_eq : ∀ y ≠ id, (∀ j < k, ∀ c ∈ (d.branch id j).nodes, ¬ Reaches d.kids c y) →
    e'.node y = e.node y
  recast : ∀ j < k, ∀ c ∈ (d.branch id j).nodes, ∀ y, Reaches d.kids c y → fate y ≠ .dissolved →
    d.Recast fate e' y
  kind_eq : e'.kind id = d.kind id
  payload_eq : (e'.node id).payload = (d.node id).payload
  length_eq : (e'.branches id).length = (d.branches id).length
  spread : ∀ j < k, d.Spreads fate (d.branch id j).items (e'.branch id j).items
  later : ∀ j, k ≤ j → e'.branch id j = d.branch id j

section

variable (hu : d.UniqueOwner top) (hc : d.Decides fate change)
include hu hc

theorem Partway.step (hb : d.Rebuilds fate top n below)
    (hid : Reaches d.refs top id) (hsame : ∀ y, Reaches d.kids id y → e.node y = d.node y)
    (hs : Shallow d.kids (n + 1) id) (hk : k < (d.branches id).length) (h : d.Partway fate id k e e') :
    d.Partway fate id (k + 1) e (rebuildBranch change below id e' k) := by
  have hkid : ∀ {j c}, c ∈ (d.branch id j).nodes → c ∈ d.kids id := fun hc =>
    mem_kids.mpr ⟨_, branch_mem (lt_of_mem_branch hc), hc⟩
  have hback : ∀ {j c y}, c ∈ (d.branch id j).nodes → Reaches d.kids c y → y ≠ id := by
    rintro j c y hc hr rfl
    exact hu.not_reaches_mem hid (d.kids_sub y (hkid hc)) (hr.mono d.kids_sub)
  have hapart : ∀ {i j a c y}, i ≠ j → a ∈ (d.branch id i).nodes → c ∈ (d.branch id j).nodes →
      Reaches d.kids a y → ¬ Reaches d.kids c y := fun hij ha hc =>
    hu.kids_apart hid (hkid ha) (hkid hc) fun heq => hij (hu.branch_unique hid ha (heq ▸ hc))
  have hbranch : e'.branch id k = d.branch id k := h.later k (le_refl k)
  have hlt' : id < e'.size := h.size_eq ▸ hu.lt_size hid
  have hlen : k < (e'.node id).branches.length := h.length_eq ▸ hk
  have hnodup : (d.branch id k).nodes.Nodup :=
    (nodup_flatMap.mp (hu.kids_nodup hid)).1 _ (branch_mem hk)
  have hfold := replaced_foldl hu hid hc hb (d.branch id k) ([], e'.setBranch id k [])
    ((size_modify _ _ _).trans h.size_eq)
    (fun c hc => ⟨hkid hc, hs c (hkid hc)⟩) hnodup fun c hc y hy => by
      rw [setBranch, modify_ne (hback hc hy), h.node_eq y (hback hc hy) fun j hj a ha hr =>
        hapart (ne_of_lt hj) ha hc hr hy]
      exact hsame y (.head (hkid hc) hy)
  rw [rebuildBranch, hbranch]
  set built := (d.branch id k).foldl (replaceFragment change below) ([], e'.setBranch id k [])
  have hltb : id < built.2.size := by
    rw [hfold.size_eq, setBranch, size_modify]
    exact hlt'
  have hself : (built.2.setBranch id k built.1.reverse).node id =
      (e'.node id).setBranch k built.1.reverse := by
    rw [setBranch, modify_self hltb, hfold.node_eq id fun c hc hr => hback hc hr rfl, setBranch,
      modify_self hlt', setBranch_setBranch _ hlen]
  have hothers : ∀ y ≠ id, (∀ c ∈ (d.branch id k).nodes, ¬ Reaches d.kids c y) →
      (built.2.setBranch id k built.1.reverse).node y = e'.node y := fun y hy hn => by
    rw [setBranch, modify_ne hy, hfold.node_eq y hn, setBranch, modify_ne hy]
  have hbranches : ∀ j, (built.2.setBranch id k built.1.reverse).branch id j =
      if j = k then built.1.reverse else e'.branch id j := fun j => by
    rw [branch, hself, branch_setBranch]
    rfl
  refine ⟨?_, fun y hy hn => ?_, fun j hj c hc y hr hy => ?_, ?_, ?_, ?_, fun j hj => ?_,
    fun j hj => ?_⟩
  · rw [setBranch, size_modify, hfold.size_eq, setBranch, size_modify, h.size_eq]
  · rw [hothers y hy (hn k (Nat.lt_succ_self k))]
    exact h.node_eq y hy fun j hj => hn j (Nat.lt_succ_of_lt hj)
  · rcases Nat.lt_succ_iff_lt_or_eq.mp hj with hj | rfl
    · exact (h.recast j hj c hc y hr hy).congr (hothers y (hback hc hr) fun c' hc' =>
        hapart (ne_of_lt hj) hc hc' hr)
    · exact (hfold.recast c hc y hr hy).congr (modify_ne (hback hc hr))
  · rw [kind, hself]
    exact h.kind_eq
  · rw [hself]
    exact h.payload_eq
  · rw [branches, hself, length_setBranch]
    have := h.length_eq
    rw [branches] at this
    omega
  · rw [hbranches]
    split_ifs with hjk
    · subst hjk
      obtain ⟨l, hl, hit⟩ := hfold.spread
      rwa [hit]
    · exact h.spread j (by omega)
  · rw [hbranches, if_neg (by omega)]
    exact h.later j (by omega)

theorem Partway.foldl (hb : d.Rebuilds fate top n below)
    (hid : Reaches d.refs top id) (hsize : e.size = d.size)
    (hsame : ∀ y, Reaches d.kids id y → e.node y = d.node y) (hs : Shallow d.kids (n + 1) id)
    (hk : k ≤ (d.branches id).length) :
    d.Partway fate id k e ((List.range k).foldl (rebuildBranch change below id) e) := by
  induction k with
  | zero =>
    have hnode := hsame id .refl
    refine ⟨hsize, fun _ _ _ => rfl, fun j hj => absurd hj (Nat.not_lt_zero j), ?_, ?_, ?_,
      fun j hj => absurd hj (Nat.not_lt_zero j), fun j _ => ?_⟩
    · exact kind_congr hnode
    · exact congrArg Node.payload hnode
    · exact congrArg (fun m : Node => m.branches.length) hnode
    · exact congrArg (fun m : Node => m.branch j) hnode
  | succ k ih =>
    rw [range_succ, foldl_append]
    exact (ih (Nat.le_of_succ_le hk)).step hu hc hb hid hsame hs hk

theorem Decides.rebuilds (n : Nat) : d.Rebuilds fate top n (rebuild change n) := by
  induction n with
  | zero => exact fun _ _ _ hs => hs.elim
  | succ n ih =>
    intro e id hid hsize hsame hs
    have hlen : (e.branches id).length = (d.branches id).length :=
      congrArg (fun m : Node => m.branches.length) (hsame id .refl)
    rw [rebuild_succ, hlen]
    have h := Partway.foldl hu hc ih hid hsize hsame hs (le_refl _)
    refine ⟨h.size_eq.trans hsize.symm, fun y hy => ?_, fun y hr hy => ?_⟩
    · refine h.node_eq y (fun heq => hy (heq ▸ .refl)) fun j hj c hc hr => hy (.head ?_ hr)
      exact mem_kids.mpr ⟨_, branch_mem hj, hc⟩
    · rcases hr.eq_or_child with rfl | ⟨c, hc, hcr⟩
      · refine ⟨h.kind_eq, h.payload_eq, List.forall₂_iff_get.mpr ⟨h.length_eq.symm, ?_⟩⟩
        intro j hj hj'
        have hspread := h.spread j hj
        rwa [branch_getElem hj, branch_getElem hj'] at hspread
      · obtain ⟨bs, hbs, hcb⟩ := mem_kids.mp hc
        obtain ⟨j, hj, rfl⟩ := getElem_of_mem hbs
        rw [← branch_getElem hj] at hcb
        have hne : y ≠ id := by
          rintro rfl
          exact hu.not_reaches_mem hid (d.kids_sub y hc) (hcr.mono d.kids_sub)
        exact h.recast j hj c hcb y hcr (hy.resolve_left hne)

theorem UniqueOwner.rebuild_rebuilt : d.Rebuilt fate top d (d.rebuild change d.size top) :=
  hc.rebuilds hu d.size .refl rfl (fun _ _ => rfl) hu.shallow_kids

end

end Rebuild

theorem Rebuilt.of_mem_kids (h : d.Rebuilt fate id d e) (hx : Reaches d.kids id x)
    (hkept : x = id ∨ fate x = .kept) (hc : c ∈ e.kids x) :
    fate c = .kept ∧ ∃ a ∈ d.kids x, Reaches d.kids a c := by
  have hrecast := h.recast x hx (hkept.imp_right fun hk hdis => by rw [hk] at hdis; cases hdis)
  have hflat : .node c ∈ Branch.items (e.branches x).flatten := by
    rw [mem_items, nodes_flatten]
    exact hc
  obtain ⟨hkept, a, ha, hac⟩ := (Spreads.flatten hrecast.spread).reaches hflat
  rw [mem_items, nodes_flatten] at ha
  exact ⟨hkept, a, ha, hac⟩

theorem Rebuilt.reaches (h : d.Rebuilt fate id d e) (hx : Reaches d.kids id x)
    (hkept : x = id ∨ fate x = .kept) (hr : Reaches e.kids x y) :
    Reaches d.kids x y ∧ (y = id ∨ fate y = .kept) := by
  induction hr with
  | refl => exact ⟨.refl, hkept⟩
  | tail _ hc ih =>
    obtain ⟨hp, hfate⟩ := ih
    obtain ⟨hkept, a, ha, hac⟩ := h.of_mem_kids (hx.trans hp) hfate hc
    exact ⟨hp.trans (.head ha hac), .inr hkept⟩

theorem UniqueOwner.rebuilt_collapseKind (hu : d.UniqueOwner id) (kind : Kind) :
    d.Rebuilt (fun x => if d.kind x = kind then .dissolved else .kept) id d
      (d.collapseKind id kind) := by
  refine hu.rebuild_rebuilt ⟨fun {e x} he hx => ?_, fun {e x} _ hx => ?_, fun {e x} he hx => ?_⟩
  · rw [he, if_neg fun hk => by rw [if_pos hk] at hx; cases hx]
  · split_ifs at hx
  · rw [he, if_pos (by by_contra hk; rw [if_neg hk] at hx; cases hx)]

theorem UniqueOwner.rebuilt_removeNodes (hu : d.UniqueOwner id) (removed : List NodeId) :
    d.Rebuilt (fun x => if x ∈ removed then .removed else .kept) id d (d.removeNodes id removed) := by
  rw [Document.removeNodes]
  split_ifs with hemp
  · refine ⟨rfl, fun _ _ => rfl, fun y _ _ => ⟨rfl, rfl, List.forall₂_same.mpr fun b _ => ?_⟩⟩
    rw [isEmpty_iff.mp hemp]
    exact .self fun x _ => if_neg not_mem_nil
  · refine hu.rebuild_rebuilt ⟨fun {e x} _ hx => ?_, fun {e x} _ hx => ?_, fun {e x} _ hx => ?_⟩
    · have hmem : x ∉ removed := fun hmem => by rw [if_pos hmem] at hx; cases hx
      rw [if_neg fun h => hmem (contains_iff_mem.mp h)]
    · have hmem : x ∈ removed := by
        by_contra hmem
        rw [if_neg hmem] at hx
        cases hx
      rw [if_pos (contains_iff_mem.mpr hmem)]
    · split_ifs at hx

end Document

/-! ### Writing -/

namespace Manner

/-- The manner, but for nodes of kinds that are removed or dissolved: nothing is written for the
former, and only the branches for the latter. -/
def fated (m : Manner) (f : Kind → Fate) : Manner := fun d w id =>
  match f (d.kind id) with
  | .kept => m d w id
  | .removed => some ""
  | .dissolved => some (d.writeBranches w id)

variable {f : Kind → Fate}

theorem fated_of_kept (h : f (d.kind id) = .kept) : m.fated f d w id = m d w id := by
  rw [fated, h]

theorem fated_of_removed (h : f (d.kind id) = .removed) : m.fated f d w id = some "" := by
  rw [fated, h]

theorem fated_of_dissolved (h : f (d.kind id) = .dissolved) :
    m.fated f d w id = some (d.writeBranches w id) := by
  rw [fated, h]

theorem textual_fated (hm : m.Textual) (f : Kind → Fate) : (m.fated f).Textual := by
  intro d d' w w' id hkind hpayload hplain htexts hbody
  cases hf : f (d'.kind id) with
  | kept =>
    rw [fated_of_kept (hkind ▸ hf), fated_of_kept hf]
    exact hm hkind hpayload hplain htexts hbody
  | removed => rw [fated_of_removed (hkind ▸ hf), fated_of_removed hf]
  | dissolved =>
    rw [fated_of_dissolved (hkind ▸ hf), fated_of_dissolved hf, Document.writeBranches,
      Document.writeBranches, htexts]

end Manner

namespace Document

variable {fate : NodeId → Fate} {f : Kind → Fate}
  {P : NodeId → Prop} {w' : NodeId → String} {b l : List Item} {top z : NodeId}
  {L' : List NodeId}

theorem writes_eq_flatten (d : Document) (w : NodeId → String) (x : NodeId) :
    d.writeBranches w x = writeBranch w (d.branches x).flatten := by
  rw [writeBranches]
  induction d.branches x with
  | nil => rfl
  | cons b bs ih =>
    rw [map_cons, String.join_cons, ih, flatten_cons, writeBranch_append]

/-- What is told of items before and after, where `P` holds of the nodes. -/
structure Tells {α : Type} (d : Document) (fate : NodeId → Fate) (P : NodeId → Prop)
    (w w' : Item → List α) : Prop where
  closed : ∀ x c, P x → c ∈ d.kids x → P c
  char : ∀ c, w' (.char c) = w (.char c)
  kept : ∀ x, P x → fate x = .kept → w' (.node x) = w (.node x)
  removed : ∀ x, P x → fate x = .removed → w (.node x) = []
  dissolved : ∀ x, P x → fate x = .dissolved →
    w (.node x) = (Branch.items (d.branches x).flatten).flatMap w

theorem Spreads.flatMap_eq {α : Type} {w w' : Item → List α} (h : d.Spreads fate b l)
    (hw : d.Tells fate P w w') (hb : ∀ x, .node x ∈ b → P x) : l.flatMap w' = b.flatMap w := by
  induction h with
  | nil => rfl
  | char _ ih =>
    rw [flatMap_cons, flatMap_cons, ih fun x hx => hb x (mem_cons_of_mem _ hx), hw.char]
  | @kept x _ _ hx _ ih =>
    rw [flatMap_cons, flatMap_cons, ih fun x hx => hb x (mem_cons_of_mem _ hx),
      hw.kept x (hb x mem_cons_self) hx]
  | @removed x _ _ hx _ ih =>
    rw [flatMap_cons, ih fun x hx => hb x (mem_cons_of_mem _ hx),
      hw.removed x (hb x mem_cons_self) hx, nil_append]
  | @dissolved x _ _ _ hx _ _ ihi ih =>
    have hself := hb x mem_cons_self
    rw [flatMap_append, flatMap_cons, ih fun x hx => hb x (mem_cons_of_mem _ hx),
      hw.dissolved x hself hx, ihi]
    intro c hc
    rw [mem_items, nodes_flatten] at hc
    exact hw.closed x c hself hc

theorem Recast.texts_eq (h : d.Recast fate e y) (hw : d.Tells fate P (Item.chars w) (Item.chars w'))
    (hy : ∀ c ∈ d.kids y, P c) :
    (e.branches y).map (writeBranch w') = (d.branches y).map (writeBranch w) := by
  have hall : ∀ b ∈ d.branches y, ∀ c ∈ b.nodes, P c := fun b hb c hc =>
    hy c (mem_kids.mpr ⟨b, hb, hc⟩)
  obtain ⟨-, -, hspread⟩ := h
  generalize d.branches y = bs at hspread hall
  generalize e.branches y = bs' at hspread
  induction hspread with
  | nil => rfl
  | cons hb _ ih =>
    obtain ⟨hhead, hall⟩ := forall_mem_cons.mp hall
    rw [map_cons, map_cons, ih hall]
    congr 1
    refine String.toList_injective ?_
    rw [toList_writeBranch, toList_writeBranch]
    exact hb.flatMap_eq hw fun x hx => hhead x (mem_items.mp hx)

theorem Grove.not_reaches_of_body (hg : d.Grove (top :: L)) (hc : c ∈ (d.node y).body.references)
    (hr : Reaches d.refs c z) : ¬ Reaches d.kids top z := by
  have howner : ∀ {q z}, z ∈ d.refs q → Reaches d.kids top z →
      Reaches d.kids top q ∧ z ∈ d.kids q := fun {q z} hz hr => by
    rcases Relation.ReflTransGen.cases_tail hr with heq | ⟨p, hp, hpz⟩
    · exact absurd (heq ▸ hz) (hg.not_mem_refs mem_cons_self)
    · obtain rfl := hg.owner_eq (d.kids_sub p hpz) hz
      exact ⟨hp, hpz⟩
  induction hr with
  | refl =>
    intro hr
    obtain ⟨-, hkid⟩ := howner ((d.node y).body_refs_sub hc) hr
    -- a node is referred to once
    have hnodup := ((d.node y).references_perm.nodup_iff).mp (hg.nodup_refs y)
    exact (disjoint_of_nodup_append hnodup) hc hkid
  | tail _ hz ih => exact fun hr => ih (howner hz hr).1

theorem Rebuilt.render_eq (h : d.Rebuilt fate top d e) (hm : m.Textual) (hg : d.Grove (top :: L))
    (hg' : e.Grove L') (hp : d.Plain) (hp' : e.Plain) (hx : Reaches d.kids top x)
    (hkept : fate x = .kept) (hfate : ∀ y, Reaches d.kids x y → fate y = f (d.kind y))
    (hbody : ∀ y, Reaches d.kids x y → ∀ c ∈ (d.node y).body.references, ∀ z,
      Reaches d.refs c z → f (d.kind z) = .kept) :
    e.writeBranches (e.render m) x = d.writeBranches (d.render (m.fated f)) x := by
  have hm' : (m.fated f).Textual := Manner.textual_fated hm f
  have hlt : ∀ y, Reaches d.kids x y → y < d.size := fun y hy =>
    hg.lt_of_reaches hg.lt_head
      (Reaches.mono d.kids_sub (hx.trans hy))
  have hrender : ∀ y, Reaches d.kids x y → d.render (m.fated f) y =
      (m.fated f d (d.render (m.fated f)) y).getD (d.writeDefault (d.render (m.fated f)) y) :=
    fun y hy => render_textual hm' hg (hlt y hy) fun z _ => hp z
  have hbodies : ∀ y, Reaches d.kids x y → ∀ c ∈ (d.node y).body.references,
      e.render m c = d.render (m.fated f) c := fun y hy c hc => by
    have hltc := hg.lt_of_refs ((d.node y).body_refs_sub hc)
    refine render_alike_of hm hg hg' hltc (h.size_eq ▸ hltc) (fun z _ => hp z) (fun z hz => ?_)
      fun z hz w => (Manner.fated_of_kept (hbody y hy c hc z hz)).symm
    rw [h.node_eq z (hg.not_reaches_of_body hc hz)]
    exact .refl _
  -- by induction on the depth of a node, its branches are written as they were to be written
  have htexts : ∀ n y, Reaches d.kids x y → Shallow d.kids (n + 1) y → fate y = .kept →
      (∀ z, Reaches d.kids x z → Shallow d.kids n z → fate z = .kept →
        e.render m z = d.render (m.fated f) z) →
      (e.branches y).map (writeBranch (e.render m)) =
        (d.branches y).map (writeBranch (d.render (m.fated f))) := by
    intro n y hy hs hk ih
    refine (h.recast y (hx.trans hy) (.inr (by rw [hk]; decide))).texts_eq
      (P := fun z => Reaches d.kids x z ∧ Shallow d.kids n z) ⟨?_, fun _ => rfl, ?_, ?_, ?_⟩ fun c hc =>
        ⟨hy.tail hc, hs c hc⟩
    · exact fun z c hz hc => ⟨hz.1.tail hc, hz.2.reaches (Reaches.child hc)⟩
    · exact fun z hz hzk => congrArg String.toList (ih z hz.1 hz.2 hzk)
    · intro z hz hzk
      rw [Item.chars, hrender z hz.1, Manner.fated_of_removed (hfate z hz.1 ▸ hzk), Option.getD_some]
      rfl
    · intro z hz hzk
      rw [Item.chars, hrender z hz.1, Manner.fated_of_dissolved (hfate z hz.1 ▸ hzk), Option.getD_some,
        writes_eq_flatten, toList_writeBranch]
  have hall : ∀ n y, Reaches d.kids x y → Shallow d.kids n y → fate y = .kept →
      e.render m y = d.render (m.fated f) y := by
    intro n
    induction n with
    | zero => exact fun _ _ hs => hs.elim
    | succ n ih =>
      intro y hy hs hk
      have hrecast := h.recast y (hx.trans hy) (.inr (by rw [hk]; decide))
      have ht := htexts n y hy hs hk ih
      rw [render_textual hm hg' (h.size_eq ▸ hlt y hy) fun z _ => hp' z, hrender y hy,
        hm hrecast.kind_eq hrecast.payload_eq (hp y) ht (hbodies y hy),
        writeDefault_eq hrecast.kind_eq hrecast.payload_eq (hp y) ht (hbodies y hy),
        Manner.fated_of_kept (hfate y hy ▸ hk)]
  have hs := (hg.shallow_kids (hlt x .refl)).mono (Nat.le_succ d.size)
  rw [writeBranches, writeBranches, htexts d.size x .refl hs hkept (hall d.size)]

end Document

end Stencil
