import Stencil.Proofs.Doc.Copying
import Stencil.Proofs.Doc.Mirror
import Stencil.Proofs.Doc.Walking

/-!
# What copies are like

The copy of a node is the same node with other numbers in it (`Node.Like`). All that is reached from the
copied node has such a copy, with numbers that are given by one map (`Copied`), for one node
(`Grove.copied_reached`) and for the nodes of a branch, which are copied one after the other
(`Grove.copied_duplicateBranch`).
-/

namespace Stencil

open Branch List

variable {e s' : Document} {l' : List NodeId} {enter : NodeId → Bool} {φ ψ : NodeId → NodeId}
  {outside : NodeId → Option NodeId}

namespace Node

variable {n n' : Node}

/-- The same node with other numbers. What a name follows is left open. -/
def Like (φ : NodeId → NodeId) (n n' : Node) : Prop :=
  ∃ target, n' = Document.renumber φ target n

theorem branches_renumber (φ : NodeId → NodeId) (target : NodeId → Option NodeId) (n : Node) :
    (Document.renumber φ target n).branches = n.branches.map (Branch.renumber φ) := by
  refine map_congr_left fun b _ => map_congr_left fun f _ => ?_
  cases f <;> rfl

theorem renumber_of_body {b : Body} (h : n.payload = .body b) (φ : NodeId → NodeId)
    (target : NodeId → Option NodeId) : (Document.renumber φ target n).payload = .body (b.renumber φ) := by
  simp only [Document.renumber, h, Body.renumber, Branch.renumber]
  congr 2

theorem eq_of_fields (hk : n.kind = n'.kind) (hp : n.place = n'.place)
    (hb : n.branches = n'.branches) (hpayload : n.payload = n'.payload) : n = n' := by
  cases n
  cases n'
  simp_all

theorem renumber_branch_congr {b : Branch} (h : ∀ c ∈ b.nodes, φ c = ψ c) :
    b.renumber φ = b.renumber ψ := by
  refine map_congr_left fun f hf => ?_
  cases f with
  | text s => rfl
  | node c => exact congrArg Fragment.node (h c (mem_nodes.mpr hf))

theorem renumber_congr {target : NodeId → Option NodeId} (h : ∀ c ∈ n.references, φ c = ψ c) :
    Document.renumber φ target n = Document.renumber ψ target n := by
  have hbranches : n.branches.map (Branch.renumber φ) = n.branches.map (Branch.renumber ψ) :=
    map_congr_left fun b hb => renumber_branch_congr fun c hc =>
      h c (mem_references.mpr (.inr (.inr (.inl ⟨b, hb, hc⟩))))
  have hpayload : (Document.renumber φ target n).payload = (Document.renumber ψ target n).payload := by
    cases hp : n.payload with
    | none => simp [Document.renumber, hp]
    | naming m => simp [Document.renumber, hp]
    | body b =>
      have hbody : n.body = b := by rw [body, body?, hp]; rfl
      rw [renumber_of_body hp, renumber_of_body hp, Body.renumber, Body.renumber]
      have hopening : b.opening.renumber φ = b.opening.renumber ψ :=
        renumber_branch_congr fun c hc => h c (mem_references.mpr (.inl (hbody ▸ hc)))
      have hmarkers : b.markers.map (fun m => (m.1, φ m.2)) = b.markers.map fun m => (m.1, ψ m.2) :=
        map_congr_left fun m hm => by
          rw [h m.2 (mem_references.mpr (.inr (.inl (hbody ▸ mem_map_of_mem hm))))]
      have hclosing : b.closing.map φ = b.closing.map ψ := by
        cases hc : b.closing with
        | none => rfl
        | some c => exact congrArg some (h c (mem_references.mpr (.inr (.inr (.inr (hbody ▸ hc))))))
      rw [hopening, hmarkers, hclosing]
  rw [← branches_renumber φ target, ← branches_renumber ψ target] at hbranches
  exact eq_of_fields rfl rfl hbranches hpayload

namespace Like

section

variable (h : Like φ n n')
include h

theorem kind_eq : n'.kind = n.kind := by
  obtain ⟨target, rfl⟩ := h
  rfl

theorem branches_eq : n'.branches = n.branches.map (Branch.renumber φ) := by
  obtain ⟨target, rfl⟩ := h
  exact branches_renumber φ target n

theorem branch_eq (i : Nat) : n'.branch i = (n.branch i).renumber φ := by
  rw [branch, branch, h.branches_eq, getD_eq_getElem?_getD, getD_eq_getElem?_getD, List.getElem?_map]
  cases n.branches[i]? <;> rfl

theorem children_eq : n'.children = n.children.renumber φ := by
  rw [children, children, h.branches_eq]
  cases n.branches <;> rfl

theorem references_eq : n'.references = n.references.map φ := by
  obtain ⟨target, rfl⟩ := h
  exact Document.references_renumber φ target n

theorem congr (heq : ∀ c ∈ n.references, φ c = ψ c) : Like ψ n n' := by
  obtain ⟨target, rfl⟩ := h
  exact ⟨target, renumber_congr heq⟩

end

end Like

end Node

namespace Document

variable {s d d' : Document} {a c id x y z : NodeId} {l L M : List NodeId}
  {k : Nat} {b : Branch}

def LeadsTo (s : Document) (l : List NodeId) (x : NodeId) : Prop := ∃ a ∈ l, Reaches s.refs a x

theorem LeadsTo.of_mem (h : a ∈ l) : s.LeadsTo l a := ⟨a, h, .refl⟩

theorem LeadsTo.tail (h : s.LeadsTo l x) (hc : c ∈ s.refs x) : s.LeadsTo l c := by
  obtain ⟨a, ha, hr⟩ := h
  exact ⟨a, ha, hr.tail hc⟩

theorem reaches_iff_of_eq (h : ∀ x, s'.LeadsTo l x → s'.node x = s.node x)
    (ha : a ∈ l) : Reaches s'.refs a x ↔ Reaches s.refs a x := by
  constructor
  · intro hr
    induction hr with
    | refl => exact .refl
    | @tail p c hp hc ih =>
      refine ih.tail ?_
      rwa [refs, ← h p ⟨a, ha, hp⟩]
  · intro hr
    induction hr with
    | refl => exact .refl
    | @tail p c _ hc ih =>
      refine ih.tail ?_
      rwa [refs, h p ⟨a, ha, ih⟩]

/-- What is reached from some nodes has copies, with numbers from `k` on. -/
structure Copied (s : Document) (l : List NodeId) (φ : NodeId → NodeId) (k : Nat) (d : Document) :
    Prop where
  like : ∀ x, s.LeadsTo l x → (s.node x).Like φ (d.node (φ x))
  le : ∀ x, s.LeadsTo l x → k ≤ φ x
  lt_size : ∀ x, s.LeadsTo l x → φ x < d.size

namespace Copied

theorem mono (h : s.Copied l φ k d) (hsize : d.size ≤ d'.size)
    (hnode : ∀ y, k ≤ y → y < d.size → d'.node y = d.node y) : s.Copied l φ k d' where
  like x hx := by
    rw [hnode _ (h.le x hx) (h.lt_size x hx)]
    exact h.like x hx
  le := h.le
  lt_size x hx := lt_of_lt_of_le (h.lt_size x hx) hsize

theorem weaken (h : s.Copied l φ k d) {j : Nat} (hj : j ≤ k) : s.Copied l φ j d :=
  ⟨h.like, fun x hx => le_trans hj (h.le x hx), h.lt_size⟩

theorem of_eq (h : s.Copied l φ k d)
    (hnode : ∀ x, s'.LeadsTo l x → s'.node x = s.node x) : s'.Copied l φ k d := by
  have hleads : ∀ x, s'.LeadsTo l x → s.LeadsTo l x := by
    rintro x ⟨a, ha, hr⟩
    exact ⟨a, ha, (reaches_iff_of_eq hnode ha).mp hr⟩
  refine ⟨fun x hx => ?_, fun x hx => h.le x (hleads x hx), fun x hx => h.lt_size x (hleads x hx)⟩
  rw [hnode x hx]
  exact h.like x (hleads x hx)

theorem sub (h : s.Copied l φ k d) (hl : ∀ a ∈ l', s.LeadsTo l a) : s.Copied l' φ k d := by
  have hleads : ∀ x, s.LeadsTo l' x → s.LeadsTo l x := by
    rintro x ⟨a, ha, hr⟩
    obtain ⟨a', ha', hr'⟩ := hl a ha
    exact ⟨a', ha', hr'.trans hr⟩
  exact ⟨fun x hx => h.like x (hleads x hx), fun x hx => h.le x (hleads x hx),
    fun x hx => h.lt_size x (hleads x hx)⟩

end Copied

theorem copied_adopt (hn : l.Nodup) (hl : ∀ x ∈ l, ∀ c ∈ s.refs x, c ∈ l) :
    s.Copied l (copyNumber d.size l) d.size (d.adopt s l outside).2 := by
  have hleads : ∀ x, s.LeadsTo l x → x ∈ l := by
    rintro x ⟨a, ha, hr⟩
    induction hr with
    | refl => exact ha
    | tail _ hc ih => exact hl _ ih _ hc
  refine ⟨fun x hx => ?_, fun x hx => (le_copyNumber hn (hleads x hx)).1, fun x hx => ?_⟩
  · obtain ⟨i, hi, rfl⟩ := getElem_of_mem (hleads x hx)
    rw [copyNumber_getElem hn hi, node_adopt_add hi]
    exact ⟨_, rfl⟩
  · rw [size_adopt]
    exact (le_copyNumber hn (hleads x hx)).2

theorem Grove.copied_reached (hs : s.Grove M) (hx : x < s.size) :
    ∃ φ, φ x = d.size ∧ s.Copied [x] φ d.size (d.adopt s (s.reached x) outside).2 ∧
      ∀ a c, s.LeadsTo [x] a → s.LeadsTo [x] c → φ a = φ c → a = c := by
  have htree := hs.isTree_reached hx
  have hmem : ∀ y, s.LeadsTo [x] y → y ∈ s.reached x := by
    rintro y ⟨a, ha, hr⟩
    rw [mem_singleton.mp ha] at hr
    exact (mem_reached (hs.shallow hx)).mpr hr
  refine ⟨copyNumber d.size (s.reached x), htree.copyNumber_eq, ?_, fun a c ha hc => ?_⟩
  · refine (copied_adopt htree.nodup htree.closed).sub fun a ha => .of_mem ?_
    rw [mem_singleton.mp ha]
    exact htree.mem
  · exact copyNumber_injOn htree.nodup (hmem a ha) (hmem c hc)

theorem Grove.not_leadsTo (h : d.Grove L) (ha : d.Antichain (a :: l)) (hx : d.LeadsTo l x) :
    ¬ d.LeadsTo [a] x := by
  rintro ⟨a', ha', hr⟩
  rw [mem_singleton.mp ha'] at hr
  obtain ⟨b, hb, hbx⟩ := hx
  have hne : a ≠ b := fun heq => (nodup_cons.mp ha.1).1 (heq ▸ hb)
  rcases h.reaches_total hr hbx with hab | hba
  · exact ha.2 a mem_cons_self b (mem_cons_of_mem _ hb) hne hab
  · exact ha.2 b (mem_cons_of_mem _ hb) a mem_cons_self hne.symm hba

theorem Antichain.sublist (h : d.Antichain l) (hs : l'.Sublist l) : d.Antichain l' :=
  ⟨h.1.sublist hs, fun a ha b hb => h.2 a (hs.subset ha) b (hs.subset hb)⟩

theorem Antichain.of_eq (h : s'.Antichain l)
    (hnode : ∀ x, s'.LeadsTo l x → s'.node x = s.node x) : s.Antichain l :=
  ⟨h.1, fun a ha b hb hne hr => h.2 a ha b hb hne ((reaches_iff_of_eq hnode ha).mpr hr)⟩

theorem Grove.antichain_children (h : d.Grove L) (x : NodeId) : d.Antichain (d.children x).nodes := by
  have hrefs : d.Antichain (d.refs x) := by
    by_cases hx : x < d.size
    · have hone : d.Antichain [x] := ⟨nodup_singleton x, by simp⟩
      simpa using (h.uniqueOwner hx).antichain_step (by simp [Relation.ReflTransGen.refl]) hone
    · rw [refs_of_le (not_lt.mp hx)]
      exact ⟨nodup_nil, by simp⟩
  refine hrefs.sublist (.trans ?_ (d.kids_sublist_refs x))
  rw [children, Node.children, kids, branches]
  cases (d.node x).branches with
  | nil => exact nil_sublist _
  | cons b bs => exact sublist_append_left _ _

theorem Grove.copied_cons {e' : Document} {k' : Nat} (h : d.Grove L) (ha : d.Antichain (c :: l))
    (hc : d.Copied [c] φ k e) (hl : d.Copied l ψ k' e') (hk : k ≤ e.size) (hk' : e.size ≤ k')
    (hgrown : e.Grown e') : ∃ χ, χ c = φ c ∧ (∀ x ∈ l, χ x = ψ x) ∧ d.Copied (c :: l) χ k e' := by
  classical
  -- no node is reached from both
  have hout : ∀ {x}, d.LeadsTo l x → ¬ d.LeadsTo [c] x := fun hx => h.not_leadsTo ha hx
  refine ⟨fun x => if d.LeadsTo [c] x then φ x else ψ x, if_pos (.of_mem mem_cons_self),
    fun x hx => if_neg (hout (.of_mem hx)), ?_⟩
  have hcases : ∀ x, d.LeadsTo (c :: l) x → d.LeadsTo [c] x ∨ d.LeadsTo l x := by
    rintro x ⟨a, ha, hr⟩
    exact (mem_cons.mp ha).imp (fun heq => ⟨a, by rw [heq]; exact mem_cons_self, hr⟩)
      fun ha => ⟨a, ha, hr⟩
  refine ⟨fun x hx => ?_, fun x hx => ?_, fun x hx => ?_⟩
  · rcases hcases x hx with hx | hx
    · rw [if_pos hx, hgrown.node_eq _ (hc.lt_size x hx)]
      exact (hc.like x hx).congr fun z hz => (if_pos (hx.tail hz)).symm
    · rw [if_neg (hout hx)]
      exact (hl.like x hx).congr fun z hz => (if_neg (hout (hx.tail hz))).symm
  · rcases hcases x hx with hx | hx
    · rw [if_pos hx]
      exact hc.le x hx
    · rw [if_neg (hout hx)]
      exact le_trans hk (le_trans hk' (hl.le x hx))
  · rcases hcases x hx with hx | hx
    · rw [if_pos hx]
      exact lt_of_lt_of_le (hc.lt_size x hx) hgrown.size_le
    · rw [if_neg (hout hx)]
      exact hl.lt_size x hx

theorem Grove.copied_foldl {acc : Branch} {L' : List NodeId} (h : d.Grove L)
    (he : e.Grove L') (hgrown : d.Grown e) (hb : ∀ c ∈ b.nodes, c < d.size) (ha : d.Antichain b.nodes) :
    ∃ ψ, (b.foldl copyFragment (acc, e)).1 = (b.renumber ψ).reverse ++ acc ∧
      d.Copied b.nodes ψ e.size (b.foldl copyFragment (acc, e)).2 ∧
      e.Grown (b.foldl copyFragment (acc, e)).2 := by
  induction b generalizing acc e L' with
  | nil => exact ⟨id, rfl, ⟨fun x hx => by simp [LeadsTo] at hx, fun x hx => by simp [LeadsTo] at hx,
      fun x hx => by simp [LeadsTo] at hx⟩, .refl e⟩
  | cons f b ih =>
    cases f with
    | text s =>
      obtain ⟨ψ, hcopy, hcopied, hgrown'⟩ := @ih e (.text s :: acc) L' he hgrown hb ha
      exact ⟨ψ, by simpa [copyFragment] using hcopy, hcopied, hgrown'⟩
    | node c =>
      obtain ⟨hc, hb⟩ := forall_mem_cons.mp hb
      have hce : c < e.size := lt_of_lt_of_le hc hgrown.size_le
      obtain ⟨he1, hgrown1⟩ := he.duplicate hce
      obtain ⟨φ, hφ, hcopied, -⟩ :
          ∃ φ, φ c = e.size ∧ e.Copied [c] φ e.size (e.duplicate c).2 ∧ _ := he.copied_reached hce
      have hsame : ∀ x, d.LeadsTo [c] x → d.node x = e.node x := by
        rintro x ⟨a, ha, hr⟩
        rw [mem_singleton.mp ha] at hr
        exact (hgrown.node_eq x (h.lt_of_reaches hc hr)).symm
      have hcopied := hcopied.of_eq hsame
      obtain ⟨ψ, hcopy, hrest, hgrown2⟩ :=
        @ih (e.duplicate c).2 (.node (e.duplicate c).1 :: acc) _ he1 (hgrown.trans hgrown1) hb
          (ha.sublist (sublist_cons_self _ _))
      obtain ⟨χ, hχ, hrest', hall⟩ :=
        h.copied_cons ha hcopied hrest hgrown1.size_le (le_refl _) hgrown2
      refine ⟨χ, ?_, hall, hgrown1.trans hgrown2⟩
      have hsame' : Branch.renumber χ b = Branch.renumber ψ b := Node.renumber_branch_congr hrest'
      have hnumber : (e.duplicate c).1 = χ c := by
        rw [hχ, hφ]
        rfl
      rw [foldl_cons, copyFragment, hcopy, renumber_cons_node, reverse_cons, hsame',
        hnumber, append_assoc]
      rfl

theorem Grove.copied_duplicateBranch (h : d.Grove L) (hb : ∀ c ∈ b.nodes, c < d.size)
    (ha : d.Antichain b.nodes) : ∃ ψ, (d.duplicateBranch b).1 = b.renumber ψ ∧
      d.Copied b.nodes ψ d.size (d.duplicateBranch b).2 := by
  obtain ⟨ψ, hcopy, hcopied, -⟩ := h.copied_foldl h (.refl d) hb ha
  refine ⟨ψ, ?_, ?_⟩
  · rw [duplicateBranch_eq, hcopy, append_nil, reverse_reverse]
  · rwa [duplicateBranch_eq]

namespace Copied

variable {enter' : NodeId → Bool} (h : s.Copied [x] φ k d)
include h

theorem kind_eq (hy : s.LeadsTo [x] y) : d.kind (φ y) = s.kind y := (h.like y hy).kind_eq

theorem childNodes_eq (hy : s.LeadsTo [x] y) : d.childNodes (φ y) = (s.childNodes y).map φ := by
  rw [childNodes, children, (h.like y hy).children_eq, nodes_renumber]
  rfl

theorem ownText_eq (hy : s.LeadsTo [x] y) : d.ownText (φ y) = s.ownText y := by
  rw [ownText, children, (h.like y hy).children_eq, text_renumber]
  rfl

theorem kids_eq (hy : s.LeadsTo [x] y) : d.kids (φ y) = (s.kids y).map φ := by
  rw [kids, branches, (h.like y hy).branches_eq, kids, branches, flatMap_map, map_flatMap]
  exact flatMap_congr fun b _ => nodes_renumber b

omit h in
theorem metIn_iff (h : s.Copied l φ k d) (henter : ∀ y, s.LeadsTo l y → enter' (φ y) = enter y)
    {as : List NodeId} (has : ∀ a ∈ as, s.LeadsTo l a) :
    d.MetIn enter' (as.map φ) z ↔ ∃ c, z = φ c ∧ s.MetIn enter as c := by
  have hkids : ∀ a, s.LeadsTo l a → d.kids (φ a) = (s.kids a).map φ := fun a ha =>
    (h.sub fun y hy => mem_singleton.mp hy ▸ ha).kids_eq (.of_mem mem_cons_self)
  constructor
  · intro hz
    generalize hbs : as.map φ = bs at hz
    induction hz generalizing as with
    | member hz =>
      rw [← hbs] at hz
      obtain ⟨c, hc, rfl⟩ := mem_map.mp hz
      exact ⟨c, rfl, .member hc⟩
    | deeper ha hopen _ ih =>
      rw [← hbs] at ha
      obtain ⟨a, hmem, rfl⟩ := mem_map.mp ha
      have hin := has a hmem
      obtain ⟨c, rfl, hc⟩ :=
        ih (fun y hy => hin.tail (s.kids_sub a hy)) (hkids a hin).symm
      exact ⟨c, rfl, .deeper hmem (henter a hin ▸ hopen) hc⟩
  · rintro ⟨c, rfl, hc⟩
    induction hc with
    | member hc => exact .member (mem_map_of_mem hc)
    | @deeper as a c ha hopen _ ih =>
      have hin := has a ha
      refine .deeper (mem_map_of_mem ha) (by rwa [henter a hin]) ?_
      rw [hkids a hin]
      exact ih fun y hy => hin.tail (s.kids_sub a hy)

theorem met_iff (henter : ∀ y, s.LeadsTo [x] y → enter' (φ y) = enter y) (ha : s.LeadsTo [x] a) :
    d.Met enter' (φ a) z ↔ ∃ c, z = φ c ∧ s.Met enter a c := by
  rw [← metIn_kids_iff, h.kids_eq ha,
    h.metIn_iff henter fun c hc => ha.tail (s.kids_sub a hc)]
  exact exists_congr fun c => and_congr_right fun _ => metIn_kids_iff

theorem mem_descendants_iff {kinds closed : List Kind} (hs : Shallow s.kids s.size x)
    (hd : Shallow d.kids d.size (φ x)) : z ∈ d.descendants (φ x) kinds closed ↔
      ∃ c, z = φ c ∧ c ∈ s.descendants x kinds closed := by
  have hx : s.LeadsTo [x] x := .of_mem mem_cons_self
  have henter : ∀ y, s.LeadsTo [x] y → (fun y => !d.hasKind y closed) (φ y) =
      (fun y => !s.hasKind y closed) y := fun y hy => by
    beta_reduce
    rw [hasKind, hasKind, h.kind_eq hy]
  have hin : ∀ c, s.Met (fun y => !s.hasKind y closed) x c → s.LeadsTo [x] c := fun c hc =>
    ⟨x, mem_cons_self, reaches_of_enc hc.encloses⟩
  rw [Document.mem_descendants_iff hd, h.met_iff henter hx]
  constructor
  · rintro ⟨⟨c, rfl, hc⟩, hk⟩
    rw [h.kind_eq (hin c hc)] at hk
    exact ⟨c, rfl, (Document.mem_descendants_iff hs).mpr ⟨hc, hk⟩⟩
  · rintro ⟨c, rfl, hc⟩
    obtain ⟨hc, hk⟩ := (Document.mem_descendants_iff hs).mp hc
    exact ⟨⟨c, rfl, hc⟩, by rwa [h.kind_eq (hin c hc)]⟩

end Copied

end Document

end Stencil
