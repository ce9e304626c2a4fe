import Stencil.Output
import Stencil.Proofs.Doc.Retelling

/-!
# A document inside another one

The nodes of one document may stand in a larger one under other numbers: `Mirror φ d e` says that node
`x` of `d` stands in `e` at `φ x`, with its branches and names renumbered.

Walks meet the same nodes (`Mirror.below_eq`), and **what is written for a node is written for its
mirror image** (`Mirror.writeNode_eq`).
-/

namespace Stencil

open Branch List Node

variable {d e : Document} {c x : NodeId} {k : Kind} {m n : Nat} {φ : NodeId → NodeId}

namespace Branch

@[simp] theorem renumber_nil : renumber φ [] = [] := rfl

@[simp] theorem renumber_cons_text (s : String) (b : Branch) :
    renumber φ (.text s :: b) = .text s :: renumber φ b := rfl

@[simp] theorem renumber_cons_node (id : NodeId) (b : Branch) :
    renumber φ (.node id :: b) = .node (φ id) :: renumber φ b := rfl

@[simp] theorem renumber_reverse (b : Branch) : renumber φ b.reverse = (renumber φ b).reverse :=
  map_reverse

@[simp] theorem nodes_renumber (b : Branch) : nodes (b.renumber φ) = b.nodes.map φ := by
  induction b with
  | nil => rfl
  | cons f b ih => cases f <;> simp [ih]

@[simp] theorem text_renumber (b : Branch) : text (b.renumber φ) = b.text := by
  rw [text, text, renumber, map_map]
  congr 1
  refine map_congr_left fun f _ => ?_
  cases f <;> rfl

theorem renumber_stack (b : Branch) (f : Fragment) :
    (b.stack f).renumber φ = (b.renumber φ).stack (f.renumber φ) := by
  cases f with
  | node id => rfl
  | text s =>
    simp only [stack, Fragment.renumber]
    split_ifs
    · rfl
    · cases b with
      | nil => rfl
      | cons g b => cases g <;> rfl

theorem renumber_push (b : Branch) (f : Fragment) :
    (b.push f).renumber φ = (b.renumber φ).push (f.renumber φ) := by
  cases f with
  | node id => exact map_append
  | text s =>
    simp only [push, Fragment.renumber]
    split_ifs
    · rfl
    · rw [renumber, renumber, List.getLast?_map]
      cases hlast : b.getLast? with
      | none => exact map_append
      | some g =>
        cases g with
        | node id => exact map_append
        | text t => simp [Fragment.renumber, map_dropLast]

theorem writeBranch_renumber (w : NodeId → String) (b : Branch) :
    Document.writeBranch w (b.renumber φ) = Document.writeBranch (fun x => w (φ x)) b := by
  induction b with
  | nil => rfl
  | cons f b ih => cases f <;> simp [ih]

end Branch

/-- A kind of token of scripts and stylesheets: compiled output has no rule of its own for it but
the one for `url()` values. -/
def Kind.IsMedia (k : Kind) : Prop :=
  k = .cssUrl ∨ ∀ (d : Document) (w : NodeId → String) (id : NodeId), d.kind id = k →
    Output.manner d w id = none

/-- The kinds of nodes in a script or stylesheet that has a document of its own. -/
def Kind.mediaTokens : List Kind :=
  [.root, .scope, .parentheses, .squareBrackets, .keyword, .identifier, .number, .operator,
   .doubleQuoted, .singleQuoted, .regex, .scriptSpace, .requiredSpace, .cssOperator, .cssString,
   .cssSpace, .cssUrl]

theorem Kind.isMedia_of_mem (h : k ∈ Kind.mediaTokens) : k.IsMedia := by
  by_cases hurl : k = .cssUrl
  · exact .inl hurl
  · refine .inr fun d w id hk => ?_
    simp only [Kind.mediaTokens, mem_cons, not_mem_nil, or_false] at h
    rcases h with h | h | h | h | h | h | h | h | h | h | h | h | h | h | h | h | h
    all_goals
      subst h
      first
        | exact absurd rfl hurl
        | simp only [Output.manner, hk]; rfl

/-- Payloads without a body that are the same but for the numbers of nodes. -/
inductive Payload.Mirrors (φ : NodeId → NodeId) : Payload → Payload → Prop where
  | none : Mirrors φ .none .none
  | naming (m : Naming) : Mirrors φ (.naming m) (.naming { m with target := m.target.map φ })

namespace Document

/-- Node `x` of the first document stands in the second one at `φ x`. -/
structure Mirror (φ : NodeId → NodeId) (d e : Document) : Prop where
  injective : Function.Injective φ
  pos : 0 < d.size
  lt_iff : ∀ x, φ x < e.size ↔ x < d.size
  /-- New nodes get numbers that correspond. -/
  beyond : ∀ n, φ (d.size + n) = e.size + n
  branches_eq : ∀ x, e.branches (φ x) = (d.branches x).map (Branch.renumber φ)
  kind_eq : ∀ x, x ≠ root → e.kind (φ x) = d.kind x
  payload : ∀ x, x ≠ root → Payload.Mirrors φ (d.node x).payload (e.node (φ x)).payload
  media : ∀ x, x ≠ root → (d.kind x).IsMedia

namespace Mirror

variable {f g : Node → Node}

section

variable (h : Mirror φ d e)
include h

theorem size_le : d.size ≤ e.size := by
  have hcard := Finset.card_le_card_of_injOn (s := Finset.range d.size) (t := Finset.range e.size)
    φ (fun x hx => ?_) h.injective.injOn
  · simpa using hcard
  · simpa [h.lt_iff] using hx

theorem branch_eq (x : NodeId) (i : Nat) : e.branch (φ x) i = (d.branch x i).renumber φ := by
  rw [branch, branch, Node.branch, Node.branch, ← branches, h.branches_eq]
  exact getD_map (n := i) (d.branches x) [] (Branch.renumber φ)

theorem children_eq (x : NodeId) : e.children (φ x) = (d.children x).renumber φ := by
  rw [children, children, ← branch_zero, ← branch_zero]
  exact h.branch_eq x 0

theorem childNodes_eq (x : NodeId) : e.childNodes (φ x) = (d.childNodes x).map φ := by
  rw [childNodes, childNodes, h.children_eq, nodes_renumber]

theorem ownText_eq (x : NodeId) : e.ownText (φ x) = d.ownText x := by
  rw [ownText, ownText, h.children_eq, text_renumber]

/-! ### Changes -/

theorem modify (hb : (g (e.node (φ x))).branches = (f (d.node x)).branches.map (Branch.renumber φ))
    (hk : (f (d.node x)).kind = d.kind x) (hk' : (g (e.node (φ x))).kind = e.kind (φ x))
    (hp : x ≠ root → Payload.Mirrors φ (f (d.node x)).payload (g (e.node (φ x))).payload) :
    Mirror φ (d.modify x f) (e.modify (φ x) g) := by
  by_cases hlt : x < d.size
  swap
  · rw [modify_of_le (not_lt.mp hlt), modify_of_le (not_lt.mp ((h.lt_iff x).not.mpr hlt))]
    exact h
  have hself : (d.modify x f).node x = f (d.node x) := modify_self hlt
  have hself' : (e.modify (φ x) g).node (φ x) = g (e.node (φ x)) :=
    modify_self ((h.lt_iff x).mpr hlt)
  have hothers : ∀ y, y ≠ x → (d.modify x f).node y = d.node y ∧
      (e.modify (φ x) g).node (φ y) = e.node (φ y) := fun y hy =>
    ⟨modify_ne hy, modify_ne fun heq => hy (h.injective heq)⟩
  refine ⟨h.injective, by rw [size_modify]; exact h.pos, fun y => ?_, fun n => ?_, fun y => ?_,
    fun y hy => ?_, fun y hy => ?_, fun y hy => ?_⟩
  · rw [size_modify, size_modify]
    exact h.lt_iff y
  · rw [size_modify, size_modify]
    exact h.beyond n
  all_goals by_cases hyx : y = x
  · rw [hyx, branches, branches, hself, hself']
    exact hb
  · rw [branches, branches, (hothers y hyx).1, (hothers y hyx).2]
    exact h.branches_eq y
  · rw [hyx, kind, kind, hself, hself', hk, hk']
    exact h.kind_eq x (hyx ▸ hy)
  · rw [kind, kind, (hothers y hyx).1, (hothers y hyx).2]
    exact h.kind_eq y hy
  · rw [hyx, hself, hself']
    exact hp (hyx ▸ hy)
  · rw [(hothers y hyx).1, (hothers y hyx).2]
    exact h.payload y hy
  · rw [hyx, kind, hself, hk]
    exact h.media x (hyx ▸ hy)
  · rw [kind, (hothers y hyx).1]
    exact h.media y hy

theorem create (hk : k.IsMedia) (p q : Place) : Mirror φ (d.create k p).2 (e.create k q).2 := by
  have hnew : φ d.size = e.size := by simpa using h.beyond 0
  have hself : (e.create k q).2.node (φ d.size) = { kind := k, place := q } := by
    rw [hnew, create_self]
  have hothers : ∀ y, y ≠ d.size → (d.create k p).2.node y = d.node y ∧
      (e.create k q).2.node (φ y) = e.node (φ y) := fun y hy =>
    ⟨node_create_ne hy, node_create_ne fun heq => hy (h.injective (heq.trans hnew.symm))⟩
  refine ⟨h.injective, by rw [size_create]; exact Nat.succ_pos _, fun y => ?_, fun n => ?_,
    fun y => ?_, fun y hy => ?_, fun y hy => ?_, fun y hy => ?_⟩
  · rw [size_create, size_create]
    rcases lt_or_ge y d.size with hy | hy
    · exact iff_of_true (Nat.lt_succ_of_lt ((h.lt_iff y).mpr hy)) (Nat.lt_succ_of_lt hy)
    · obtain ⟨n, rfl⟩ := Nat.exists_eq_add_of_le hy
      rw [h.beyond]
      exact Nat.add_lt_add_iff_left.trans Nat.add_lt_add_iff_left.symm
  · rw [size_create, size_create, Nat.add_assoc, Nat.add_comm 1 n, h.beyond, Nat.add_assoc,
      Nat.add_comm 1 n]
  all_goals by_cases hyx : y = d.size
  · rw [hyx, branches, branches, create_self, hself]
    rfl
  · rw [branches, branches, (hothers y hyx).1, (hothers y hyx).2]
    exact h.branches_eq y
  · rw [hyx, kind, kind, create_self, hself]
  · rw [kind, kind, (hothers y hyx).1, (hothers y hyx).2]
    exact h.kind_eq y hy
  · rw [hyx, create_self, hself]
    exact .none
  · rw [(hothers y hyx).1, (hothers y hyx).2]
    exact h.payload y hy
  · rw [hyx, kind, create_self]
    exact hk
  · rw [kind, (hothers y hyx).1]
    exact h.media y hy

theorem setBranch (x : NodeId) (i : Nat) (b : Branch) :
    Mirror φ (d.setBranch x i b) (e.setBranch (φ x) i (b.renumber φ)) := by
  refine h.modify ?_ rfl rfl (h.payload x)
  have hb : (e.node (φ x)).branches = (d.node x).branches.map (Branch.renumber φ) := h.branches_eq x
  simp only [Node.setBranch, Node.grow, hb, length_map, map_set, map_append,
    map_replicate, renumber_nil]

theorem setChildren (x : NodeId) (b : Branch) :
    Mirror φ (d.setChildren x b) (e.setChildren (φ x) (b.renumber φ)) :=
  h.modify rfl rfl rfl (h.payload x)

theorem appendText (x : NodeId) (s : String) : Mirror φ (d.appendText x s) (e.appendText (φ x) s) := by
  have happend : ∀ d : Document, d.append x 0 (.text s) =
      d.setBranch x 0 ((d.branch x 0).push (.text s)) := fun d => modify_congr rfl
  have happend' : ∀ d : Document, d.append (φ x) 0 (.text s) =
      d.setBranch (φ x) 0 ((d.branch (φ x) 0).push (.text s)) := fun d => modify_congr rfl
  rw [Document.appendText, Document.appendText]
  split_ifs
  · exact h
  · rw [happend, happend', h.branch_eq]
    have hpush := h.setBranch x 0 ((d.branch x 0).push (.text s))
    rw [renumber_push] at hpush
    exact hpush

theorem prepend (x : NodeId) (fragments : Branch) :
    Mirror φ (d.prepend x fragments) (e.prepend (φ x) (fragments.renumber φ)) := by
  rw [Document.prepend, Document.prepend, h.branch_eq, Branch.renumber, Branch.renumber, ← map_append]
  exact h.setBranch x 0 _

theorem modifyNaming (x : NodeId) {f g : Naming → Naming}
    (hfg : ∀ m : Naming, g { m with target := m.target.map φ } =
      { f m with target := (f m).target.map φ }) :
    Mirror φ (d.modifyNaming x f) (e.modifyNaming (φ x) g) := by
  refine h.modify (h.branches_eq x) rfl rfl fun hx => ?_
  have hnaming : (e.node (φ x)).naming =
      { (d.node x).naming with target := (d.node x).naming.target.map φ } := by
    have hp := h.payload x hx
    rw [Node.naming, Node.naming, Node.naming?, Node.naming?]
    generalize (d.node x).payload = p at hp
    generalize (e.node (φ x)).payload = p' at hp
    cases hp <;> rfl
  show Payload.Mirrors φ (.naming (f (d.node x).naming)) (.naming (g (e.node (φ x)).naming))
  rw [hnaming, hfg]
  exact .naming _

/-! ### Walks -/

theorem below_eq (hfree : ∀ x, root ∉ d.kids x) {enter enter' : NodeId → Bool}
    (henter : ∀ c, c ≠ root → enter' (φ c) = enter c) (hn : Shallow d.kids n x)
    (hm : Shallow d.kids m x) : e.below enter' m (φ x) = (d.below enter n x).map φ := by
  induction n generalizing x m with
  | zero => exact hn.elim
  | succ n ih =>
    obtain ⟨m, rfl⟩ := hm.exists_succ
    rw [below, below, h.branches_eq, flatMap_map, map_flatMap]
    refine flatMap_congr fun b hb => ?_
    rw [nodes_renumber, flatMap_map, map_flatMap]
    refine flatMap_congr fun c hc => ?_
    have hc : c ∈ d.kids x := mem_kids.mpr ⟨b, hb, hc⟩
    have hne : c ≠ root := by
      rintro rfl
      exact hfree x hc
    rw [map_cons, henter c hne]
    split_ifs
    · rw [ih (hn c hc) (hm c hc)]
    · rfl

end

end Mirror

/-- Where the nodes of a new document stand in another one: the root at a region, and the nodes that
are made later at the end. -/
def standing (region size : Nat) : NodeId → NodeId
  | 0 => region
  | n + 1 => size + n

theorem standing_injective {region size : Nat} (h : region < size) :
    Function.Injective (standing region size) := by
  have hne : ∀ n, region ≠ size + n := fun n => by omega
  rintro (_ | x) (_ | y) hxy
  · rfl
  · exact absurd hxy (hne y)
  · exact absurd hxy.symm (hne x)
  · exact congrArg _ (Nat.add_left_cancel hxy)

theorem Mirror.start {region : NodeId} (hlt : region < e.size) (hd : d.size = 1)
    (hb : d.branches root = [[]]) (hb' : e.branches region = [[]]) :
    Mirror (standing region e.size) d e := by
  have hnode : ∀ x, x ≠ root → d.node x = { kind := .root, place := Place.startOf "" } ∧
      e.node (standing region e.size x) = { kind := .root, place := Place.startOf "" } := by
    intro x hx
    obtain ⟨n, rfl⟩ := Nat.exists_eq_succ_of_ne_zero hx
    exact ⟨node_of_le (by omega), node_of_le (Nat.le_add_right _ _)⟩
  refine ⟨standing_injective hlt, by omega, fun x => ?_, fun n => ?_, fun x => ?_, fun x hx => ?_,
    fun x hx => ?_, fun x hx => ?_⟩
  · rw [hd]
    cases x with
    | zero => exact iff_of_true hlt Nat.one_pos
    | succ n => exact iff_of_false (not_lt.mpr (Nat.le_add_right _ _)) (by simp)
  · rw [hd, Nat.add_comm]
    rfl
  · by_cases hx : x = root
    · rw [hx, hb]
      exact hb'
    · rw [branches, branches, (hnode x hx).1, (hnode x hx).2]
      rfl
  · rw [kind, kind, (hnode x hx).1, (hnode x hx).2]
  · rw [(hnode x hx).1, (hnode x hx).2]
    exact .none
  · rw [kind, (hnode x hx).1]
    exact Kind.isMedia_of_mem (by decide)

namespace Mirror

theorem hasKind_eq (h : Mirror φ d e) (hx : x ≠ root) (kinds : List Kind) :
    e.hasKind (φ x) kinds = d.hasKind x kinds := by
  rw [hasKind, hasKind, h.kind_eq x hx]

theorem descendants_eq (h : Mirror φ d e) (hfree : ∀ x, root ∉ d.kids x)
    (hs : Shallow d.kids d.size x) (kinds closed : List Kind) :
    e.descendants (φ x) kinds closed = (d.descendants x kinds closed).map φ := by
  rw [descendants, descendants, walk, walk,
    h.below_eq hfree (fun c hc => by rw [h.hasKind_eq hc]) hs (hs.mono h.size_le), filter_map]
  congr 1
  refine filter_congr fun c hc => h.hasKind_eq ?_ kinds
  rintro rfl
  obtain ⟨p, -, hp⟩ := Relation.TransGen.tail'_iff.mp (encloses_of_below hc)
  exact hfree p hp

/-! ### What is written -/

theorem writeDefault_eq (h : Mirror φ d e) (hx : x ≠ root) {w w' : NodeId → String}
    (hw : ∀ c ∈ d.uses x, w' (φ c) = w c) : e.writeDefault w' (φ x) = d.writeDefault w x := by
  have hp : (e.node (φ x)).payload = (d.node x).payload.renumber φ fun t => some (φ t) := by
    have hp := h.payload x hx
    generalize (d.node x).payload = p at hp ⊢
    generalize (e.node (φ x)).payload = p' at hp ⊢
    cases hp with
    | none => rfl
    | naming m => simp only [Payload.renumber, Option.map_eq_bind]; rfl
  have hasks : ∀ c ∈ d.asks x, w c = w' (φ c) := fun c hc => (hw c (d.asks_sub_uses x hc)).symm
  refine (writeDefault_rel (R := Eq) (fun _ => rfl) (fun hs ht => hs ▸ ht ▸ rfl) (h.kind_eq x hx)
    (h.branches_eq x) hp (fun c hc _ => hasks c hc) rfl fun t ht _ hne => ?_).symm
  exact ⟨φ t, rfl, h.injective.ne hne, hasks t ht⟩

end Mirror

end Document

def Manner.Mirrored (φ : NodeId → NodeId) (m : Manner) : Prop :=
  ∀ {d e : Document} {w w' : NodeId → String} {x : NodeId}, Document.Mirror φ d e →
    x ≠ Document.root → (∀ c ∈ d.uses x, w' (φ c) = w c) → m e w' (φ x) = m d w x

namespace Document

variable {M : Manner}

theorem Mirror.writeNode_eq (h : Mirror φ d e) (hM : M.Mirrored φ) (hx : ¬ Reaches d.uses x root)
    (hn : Shallow d.uses n x) (hm : Shallow d.uses m x) :
    e.writeNode M m (φ x) = d.writeNode M n x := by
  induction n generalizing x m with
  | zero => exact hn.elim
  | succ n ih =>
    obtain ⟨m, rfl⟩ := hm.exists_succ
    have hne : x ≠ root := by
      rintro rfl
      exact hx .refl
    have hw : ∀ c ∈ d.uses x, e.writeNode M m (φ c) = d.writeNode M n c := fun c hc =>
      ih (fun hr => hx ((Reaches.child hc).trans hr)) (hn c hc) (hm c hc)
    simp only [writeNode, hM h hne hw, h.writeDefault_eq hne hw]

theorem Mirror.sourceOf_eq (h : Mirror φ d e) (hx : ¬ Reaches d.uses x root)
    (hs : Shallow d.uses d.size x) : e.sourceOf (φ x) = d.sourceOf x :=
  h.writeNode_eq (fun _ _ _ => rfl) hx hs (hs.mono h.size_le)

end Document

/-! ### Less text -/

namespace Document

/-- A document has lost nodes from its branches, and the mirrored one has lost the same. -/
structure Trimmed (φ : NodeId → NodeId) (d0 d e : Document) : Prop extends Mirror φ d e where
  size_eq : d.size = d0.size
  kinds_eq : ∀ x, d.kind x = d0.kind x
  payload_eq : ∀ x, (d.node x).payload = (d0.node x).payload
  refs_sublist : ∀ x, (d.refs x).Sublist (d0.refs x)

namespace Trimmed

variable {d0 : Document}

theorem refl (h : Mirror φ d e) : Trimmed φ d d e :=
  ⟨h, rfl, fun _ => rfl, fun _ => rfl, fun _ => .refl _⟩

theorem modify (h : Trimmed φ d0 d e) {f g : Node → Node}
    (hm : Mirror φ (d.modify x f) (e.modify (φ x) g)) (hk : (f (d.node x)).kind = (d.node x).kind)
    (hp : (f (d.node x)).payload = (d.node x).payload)
    (hb : ((f (d.node x)).branches.flatMap Branch.nodes).Sublist (d.kids x)) :
    Trimmed φ d0 (d.modify x f) (e.modify (φ x) g) := by
  refine ⟨hm, by rw [size_modify, h.size_eq], fun y => ?_, fun y => ?_,
    fun y => .trans ?_ (h.refs_sublist y)⟩
  · rw [kind, modify_of_eq Node.kind hk]
    exact h.kinds_eq y
  · rw [modify_of_eq Node.payload hp, h.payload_eq]
  · rcases node_modify_cases d x f y with heq | ⟨-, rfl, heq⟩ <;> rw [refs, heq]
    · exact .refl _
    · rw [refs, Node.references, Node.references, Node.body, Node.body, Node.body?, Node.body?, hp]
      exact ((List.Sublist.refl _).append hb).append (.refl _)

theorem setText (h : Trimmed φ d0 d e) (x : NodeId) (s : String) :
    Trimmed φ d0 (d.setChildren x [.text s]) (e.setChildren (φ x) [.text s]) :=
  h.modify (h.setChildren x [.text s]) rfl rfl (nil_sublist _)

theorem mem_refs {i : Nat} (h : Trimmed φ d0 d e) (hc : c ∈ (d.branch x i).nodes) : c ∈ d0.refs x :=
  (h.refs_sublist x).subset (refs_of_mem hc)

end Trimmed

theorem UniqueOwner.of_sublist {d' : Document} {top : NodeId} (h : d.UniqueOwner top)
    (hsize : d'.size = d.size) (hs : ∀ x, (d'.refs x).Sublist (d.refs x)) : d'.UniqueOwner top := by
  have hreached : ∀ {x}, Reaches d'.refs top x → Reaches d.refs top x :=
    fun hx => hx.mono fun y => (hs y).subset
  refine ⟨fun hx => ?_, fun hp hc => ?_, fun hp => ?_, fun hp hq hc hc' => ?_⟩
  · rw [hsize]
    exact h.lt_size (hreached hx)
  · exact h.top_free (hreached hp) ((hs _).subset hc)
  · exact (h.nodup (hreached hp)).sublist (hs _)
  · exact h.owner_eq (hreached hp) (hreached hq) ((hs _).subset hc) ((hs _).subset hc')

/-- A document of its own that text has been split in: a tree below the root, without bodies and
names. -/
structure IsTokens (d : Document) : Prop where
  grove : d.Grove [root]
  payload_eq : ∀ x, (d.node x).payload = .none
  kind_eq : d.kind root = .root

namespace IsTokens

variable (h : d.IsTokens)
include h

theorem uniqueOwner : d.UniqueOwner root :=
  .of_slots h.grove.nodup.of_append_left
    (fun x hx => h.grove.lt_size x (mem_append_left _ hx))
    h.grove.lt_head
    fun hx => (nodup_append.mp h.grove.nodup).2.2 _ hx _ mem_cons_self rfl

theorem root_free (x : NodeId) : root ∉ d.refs x := h.grove.not_mem_refs mem_cons_self

end IsTokens

/-- A document of its own that can be written: its root is as it was made, and no use leads back. -/
structure Ready (d : Document) : Prop where
  kind_eq : d.kind root = .root
  payload_eq : (d.node root).payload = .none
  shallow : Shallow d.uses d.size root

end Document

theorem Output.mirrored_manner (φ : NodeId → NodeId) : Output.manner.Mirrored φ := by
  intro d e w w' x h hx hw
  rcases h.media x hx with hk | hnone
  · have huses : d.uses x = d.refs x ++ (d.node x).naming.target.toList :=
      if_neg fun hi => by rw [Document.kind, hi.1] at hk; cases hk
    have hkids : ∀ c ∈ (d.children x).nodes, w' (φ c) = w c := fun c hc =>
      hw c (huses ▸ mem_append_left _ (Document.refs_of_children hc))
    simp only [manner, h.kind_eq x hx, hk, Option.some_inj, url, h.children_eq, Branch.renumber,
      map_map]
    congr 3
    refine map_congr_left fun f hf => ?_
    cases f with
    | text s => rfl
    | node c => exact hkids c (mem_nodes.mpr hf)
  · rw [hnone d w x rfl, hnone e w' (φ x) (h.kind_eq x hx)]

theorem Document.Mirror.output_eq (h : Mirror φ d e)
    (hr : d.Ready) : e.writeBranches e.outputOf (φ root) = d.output := by
  obtain ⟨hk, hp, hs⟩ := hr
  obtain ⟨n, hn⟩ := Nat.exists_eq_succ_of_ne_zero (ne_of_gt h.pos)
  have huses : d.uses root = d.refs root := uses_eq_refs (by rw [Node.naming?, hp])
  have hmanner : ∀ w, Output.manner d w root = none := fun w => by
    simp only [Output.manner, hk]
    rfl
  rw [output, outputOf, render, hn, writeNode, hmanner, Option.getD_none, write_of_none hp, hk]
  show _ = "" ++ d.writeBranches (d.writeNode Output.manner n) root ++ ""
  rw [String.empty_append, String.append_empty, writeBranches, writeBranches, h.branches_eq, map_map]
  congr 1
  refine map_congr_left fun b hb => ?_
  rw [Function.comp_apply, writeBranch_renumber]
  refine branch_congr fun c hc => ?_
  have hc : c ∈ d.uses root := huses ▸ refs_of_branch hb hc
  refine h.writeNode_eq (Output.mirrored_manner φ) (hs.not_reaches hc) ?_ ?_
  · exact (hn ▸ hs) c hc
  · exact (hs.child hc).mono (le_trans (Nat.sub_le _ _) h.size_le)

end Stencil
