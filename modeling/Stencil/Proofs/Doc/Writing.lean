import Stencil.Doc.Emission
import Stencil.Proofs.Doc.Depth

/-!
# What a document is written as

Writing goes down a bounded number of levels. Where a node is shallow the bound does not show: what
is written for it is what the rule of its kind makes of what is written for the nodes it uses
(`render_eq`, `sourceOf_eq`), and only the nodes reached from it matter (`render_congr`).
-/

namespace Stencil

open List Node

/-- A fragment with other numbers. -/
def Fragment.renumber (φ : NodeId → NodeId) : Fragment → Fragment
  | .text s => .text s
  | .node id => .node (φ id)

/-- A branch with other numbers. -/
def Branch.renumber (φ : NodeId → NodeId) (b : Branch) : Branch := b.map (Fragment.renumber φ)

/-- A body with other numbers. -/
def Body.renumber (φ : NodeId → NodeId) (b : Body) : Body where
  opening := b.opening.renumber φ
  markers := b.markers.map fun m => (m.1, φ m.2)
  closing := b.closing.map φ

/-- A payload with other numbers: those that it refers to are given by `φ`, and the one whose name it
follows by `link`. -/
def Payload.renumber (φ : NodeId → NodeId) (link : NodeId → Option NodeId) : Payload → Payload
  | .none => .none
  | .body b => .body (b.renumber φ)
  | .naming m => .naming { m with target := m.target.bind link }

@[simp] theorem Branch.renumber_id (b : Branch) : Branch.renumber id b = b := by
  induction b with
  | nil => rfl
  | cons f b ih => cases f <;> exact congrArg (_ :: ·) ih

variable {d d' : Document} {c id : NodeId} {w' : NodeId → String}

/-- The nodes that the writing of a node may look at: none for an identifier with a new name, else
those it refers to and the identifier whose name it follows. -/
def Node.uses (n : Node) : List NodeId :=
  if n.kind = .identifier ∧ n.naming.rename.isSome then []
  else n.references ++ n.naming.target.toList

/-- The nodes that a body refers to: those in its opening, its markers and its closing. -/
def Body.references (b : Body) : List NodeId :=
  b.opening.nodes ++ b.markers.map (·.2) ++ b.closing.toList

theorem Body.mem_references {b : Body} : c ∈ b.references ↔
    c ∈ b.opening.nodes ∨ c ∈ b.markers.map (·.2) ∨ b.closing = some c := by
  simp only [references, mem_append, Option.mem_toList, or_assoc]

namespace Node

theorem mem_references {n : Node} : c ∈ n.references ↔
    c ∈ n.body.opening.nodes ∨ c ∈ n.body.markers.map (·.2) ∨
      (∃ b ∈ n.branches, c ∈ b.nodes) ∨ n.body.closing = some c := by
  simp only [references, mem_append, mem_flatMap, Option.mem_toList, or_assoc]

theorem body_refs_sub (n : Node) : n.body.references ⊆ n.references := fun c hc => by
  rw [mem_references]
  rcases Body.mem_references.mp hc with hc | hc | hc
  · exact .inl hc
  · exact .inr (.inl hc)
  · exact .inr (.inr (.inr hc))

theorem uses_of_no_rename {n : Node} (h : n.naming.rename = none) :
    n.uses = n.references ++ n.naming.target.toList := by
  rw [uses, if_neg]
  rw [h]
  exact fun hk => Bool.false_ne_true hk.2

theorem uses_eq_refs {n : Node} (h : n.naming? = none) : n.uses = n.references := by
  have hm : n.naming = {} := by rw [naming, h]; rfl
  rw [uses_of_no_rename (by rw [hm]), hm]
  exact append_nil _

/-- The nodes that are asked for when the node with the number `id` is written: what is in its branches
and in its body, or for an identifier without a new name the one whose name it follows, or else what is
in its first branch. -/
def asks (n : Node) (id : NodeId) : List NodeId :=
  match n.payload with
  | .none => n.branches.flatMap Branch.nodes
  | .body _ => n.references
  | .naming m =>
    if m.rename.isSome then []
    else if m.target.isNone || m.target == some id then n.children.nodes
    else m.target.toList

end Node

namespace Branch

@[simp] theorem nodes_nil : nodes [] = [] := rfl

@[simp] theorem nodes_cons_text (s : String) (b : Branch) : nodes (.text s :: b) = nodes b := rfl

@[simp] theorem nodes_cons_node (id : NodeId) (b : Branch) :
    nodes (.node id :: b) = id :: nodes b := rfl

@[simp] theorem nodes_append (b b' : Branch) : nodes (b ++ b') = nodes b ++ nodes b' :=
  filterMap_append

@[simp] theorem nodes_reverse (b : Branch) : nodes b.reverse = (nodes b).reverse :=
  filterMap_reverse

theorem mem_nodes {b : Branch} : id ∈ b.nodes ↔ .node id ∈ b := by
  rw [nodes, mem_filterMap]
  constructor
  · rintro ⟨f, hf, h⟩
    cases f with
    | text s => cases h
    | node i => cases h; exact hf
  · exact fun h => ⟨_, h, rfl⟩

@[simp] theorem nodes_stack_text (b : Branch) (s : String) : nodes (b.stack (.text s)) = nodes b := by
  unfold stack
  split
  case h_1 h => cases h
  case h_2 =>
    split_ifs
    · rfl
    · split <;> rfl

@[simp] theorem nodes_stack_node (b : Branch) (id : NodeId) :
    nodes (b.stack (.node id)) = id :: nodes b := rfl

end Branch

namespace Document

def refs (d : Document) (id : NodeId) : List NodeId := (d.node id).references

/-- The nodes that the writing of a node of the document may look at. -/
def uses (d : Document) (id : NodeId) : List NodeId := (d.node id).uses

/-- The nodes that are asked for when a node of the document is written. -/
def asks (d : Document) (id : NodeId) : List NodeId := (d.node id).asks id

theorem refs_of_branch {b : Branch} (hb : b ∈ d.branches id) (hc : c ∈ b.nodes) : c ∈ d.refs id :=
  mem_references.mpr (.inr (.inr (.inl ⟨b, hb, hc⟩)))

theorem children_of_branches {b : Branch} (hb : d.branches id = [b]) : d.children id = b := by
  rw [branches] at hb
  rw [children, Node.children, hb]
  rfl

theorem refs_of_children {x : NodeId} (h : c ∈ (d.children x).nodes) : c ∈ d.refs x := by
  rw [children, Node.children] at h
  cases hbs : (d.node x).branches with
  | nil => rw [hbs] at h; cases h
  | cons b bs =>
    rw [hbs] at h
    exact refs_of_branch (by rw [branches, hbs]; exact mem_cons_self) h

section Branches

variable (w : NodeId → String)

@[simp] theorem writeBranch_nil : writeBranch w [] = "" := rfl

@[simp] theorem branch_cons_text (s : String) (b : Branch) :
    writeBranch w (.text s :: b) = s ++ writeBranch w b := by
  simp only [writeBranch, map_cons, String.join_cons]

@[simp] theorem branch_cons_node (id : NodeId) (b : Branch) :
    writeBranch w (.node id :: b) = w id ++ writeBranch w b := by
  simp only [writeBranch, map_cons, String.join_cons]

@[simp] theorem writeBranch_append (b b' : Branch) :
    writeBranch w (b ++ b') = writeBranch w b ++ writeBranch w b' := by
  simp only [writeBranch, map_append, String.join_append]

theorem writeBranch_stack (b : Branch) (f : Fragment) :
    writeBranch w (b.stack f).reverse = writeBranch w b.reverse ++ writeBranch w [f] := by
  cases f with
  | node id => simp [Branch.stack]
  | text s =>
    simp only [Branch.stack]
    split_ifs with hs
    · simp [hs]
    · split
      · simp [String.append_assoc]
      · simp

variable {w}

theorem branch_congr {b : Branch} (h : ∀ c ∈ b.nodes, w c = w' c) :
    writeBranch w b = writeBranch w' b := by
  induction b with
  | nil => rfl
  | cons f b ih =>
    cases f with
    | text s =>
      rw [branch_cons_text, branch_cons_text, ih h]
    | node id =>
      rw [branch_cons_node, branch_cons_node, h id (by simp),
        ih fun c hc => h c (by simp [hc])]

def writeMarkers (w : NodeId → String) (b : Body) (i : Nat) : String :=
  String.join ((b.markers.filter (·.1 == i)).map fun m => w m.2)

theorem writeBody_def (w : NodeId → String) (bs : List Branch) (b : Body) : writeBody w bs b =
    String.join ((bs.map (writeBranch w)).zipIdx.map fun p => writeMarkers w b p.2 ++ p.1) ++
      (b.closing.map w).getD "" := by
  rw [zipIdx_map, map_map]
  rfl

theorem writeBody_eq {bs bs' : List Branch} {b : Body}
    (hbs : bs.map (writeBranch w) = bs'.map (writeBranch w'))
    (hm : ∀ m ∈ b.markers, w m.2 = w' m.2) (hc : ∀ c, b.closing = some c → w c = w' c) :
    writeBody w bs b = writeBody w' bs' b := by
  have hclosing : b.closing.map w = b.closing.map w' := by
    cases h : b.closing with
    | none => rfl
    | some c => exact congrArg some (hc c h)
  have hmarkers : writeMarkers w b = writeMarkers w' b := by
    funext i
    exact congrArg String.join (map_congr_left fun m hm' => hm m (mem_of_mem_filter hm'))
  rw [writeBody_def, writeBody_def, hclosing, hmarkers, hbs]

end Branches

section Rule

theorem write_of_none (h : (d.node id).payload = .none) (w : NodeId → String) :
    d.writeDefault w id = ((d.kind id).delimiters.getD ("", "")).1 ++ d.writeBranches w id ++
      ((d.kind id).delimiters.getD ("", "")).2 := by
  simp only [writeDefault, h]
  rfl

theorem write_of_body {b : Body} (h : (d.node id).payload = .body b) (w : NodeId → String) :
    d.writeDefault w id = (d.kind id).openingDelimiters.1 ++ writeBranch w b.opening ++
      (d.kind id).openingDelimiters.2 ++ writeBody w (d.branches id) b := by
  simp only [writeDefault, h]
  rfl

theorem write_of_rename {name : String} (h : (d.node id).naming.rename = some name)
    (w : NodeId → String) : d.writeDefault w id = name := by
  cases hp : (d.node id).payload with
  | none => simp [Node.naming, Node.naming?, hp] at h
  | body b => simp [Node.naming, Node.naming?, hp] at h
  | naming m =>
    have hm : m.rename = some name := by simpa [Node.naming, Node.naming?, hp] using h
    simp only [writeDefault, hp, hm]

theorem write_of_target {m : Naming} (h : (d.node id).payload = .naming m)
    (hr : m.rename = none) (w : NodeId → String) : d.writeDefault w id =
      match m.target with
      | some target => if target = id then writeBranch w (d.children id) else w target
      | none => writeBranch w (d.children id) := by
  simp only [writeDefault, h, hr]
  rfl

theorem writeDefault_eq {id' : NodeId} {w : NodeId → String}
    (hk : d.kind id = d'.kind id') (hp : (d.node id).payload = (d'.node id').payload)
    (hn : (d'.node id').naming? = none)
    (hbs : (d.branches id).map (writeBranch w) = (d'.branches id').map (writeBranch w'))
    (hw : ∀ c ∈ (d'.node id').body.references, w c = w' c) :
    d.writeDefault w id = d'.writeDefault w' id' := by
  cases hp' : (d'.node id').payload with
  | none =>
    rw [write_of_none hp', write_of_none (hp.trans hp'), hk, writeBranches, writeBranches, hbs]
  | body b =>
    have hb : (d'.node id').body = b := by simp [Node.body, Node.body?, hp']
    rw [hb] at hw
    rw [write_of_body hp', write_of_body (hp.trans hp'), hk,
      branch_congr fun c hc => hw c (Body.mem_references.mpr (.inl hc)),
      writeBody_eq hbs
        (fun m hm => hw m.2 (Body.mem_references.mpr (.inr (.inl (mem_map_of_mem hm)))))
        (fun c hc => hw c (Body.mem_references.mpr (.inr (.inr hc))))]
  | naming m => simp [Node.naming?, hp'] at hn

section Related

variable {R : String → String → Prop} (hrefl : ∀ s, R s s)
  (happ : ∀ {s s' t t'}, R s s' → R t t' → R (s ++ t) (s' ++ t')) {φ : NodeId → NodeId}
  {link : NodeId → Option NodeId} {w : NodeId → String}
include hrefl happ

theorem join_rel {α : Type} {f g : α → String} {l : List α} (h : ∀ a ∈ l, R (f a) (g a)) :
    R (String.join (l.map f)) (String.join (l.map g)) := by
  induction l with
  | nil => exact hrefl _
  | cons a l ih =>
    obtain ⟨ha, hl⟩ := forall_mem_cons.mp h
    rw [map_cons, map_cons, String.join_cons, String.join_cons]
    exact happ ha (ih hl)

theorem writeBranch_rel {b : Branch} (h : ∀ c ∈ b.nodes, R (w c) (w' (φ c))) :
    R (writeBranch w b) (writeBranch w' (b.renumber φ)) := by
  rw [writeBranch, writeBranch, Branch.renumber, map_map]
  refine join_rel hrefl happ fun f hf => ?_
  cases f with
  | text s => exact hrefl s
  | node c => exact h c (Branch.mem_nodes.mpr hf)

theorem writeBody_rel {bs : List Branch} {b : Body} (hbs : ∀ b ∈ bs, ∀ c ∈ b.nodes, R (w c) (w' (φ c)))
    (hb : ∀ c ∈ b.references, R (w c) (w' (φ c))) :
    R (writeBody w bs b) (writeBody w' (bs.map (Branch.renumber φ)) (b.renumber φ)) := by
  rw [writeBody, writeBody, zipIdx_map, map_map]
  refine happ (join_rel hrefl happ fun p hp => happ ?_ (writeBranch_rel hrefl happ (hbs p.1 ?_))) ?_
  · simp only [Body.renumber, filter_map, map_map]
    refine join_rel hrefl happ fun m hm => hb m.2 ?_
    exact Body.mem_references.mpr (.inr (.inl (mem_map_of_mem (mem_of_mem_filter hm))))
  · exact (mem_zipIdx' hp).2 ▸ getElem_mem _
  · cases hc : b.closing with
    | none =>
      simp only [Body.renumber, hc]
      exact hrefl _
    | some c =>
      simp only [Body.renumber, hc]
      exact hb c (Body.mem_references.mpr (.inr (.inr hc)))

/-- **Writing is parametric**: nodes that are the same but for their numbers are written alike, if what
they ask for is. -/
theorem writeDefault_rel {id' : NodeId} (hk : d'.kind id' = d.kind id)
    (hbs : d'.branches id' = (d.branches id).map (Branch.renumber φ))
    (hp : (d'.node id').payload = (d.node id).payload.renumber φ link)
    (hw : ∀ c ∈ d.asks id, c ∈ d.refs id → R (w c) (w' (φ c))) (hid : link id = some id')
    (hlink : ∀ t ∈ d.asks id, (d.node id).naming.target = some t → t ≠ id →
      ∃ t', link t = some t' ∧ t' ≠ id' ∧ R (w t) (w' t')) :
    R (d.writeDefault w id) (d'.writeDefault w' id') := by
  cases hpay : (d.node id).payload with
  | none =>
    rw [hpay] at hp
    rw [write_of_none hpay, write_of_none hp, hk, writeBranches, writeBranches, hbs, map_map]
    refine happ (happ (hrefl _) (join_rel hrefl happ fun b hb => ?_)) (hrefl _)
    refine writeBranch_rel hrefl happ fun c hc => hw c ?_ (refs_of_branch hb hc)
    simp only [asks, Node.asks, hpay]
    exact mem_flatMap.mpr ⟨b, hb, hc⟩
  | body b =>
    rw [hpay] at hp
    have hrefs : ∀ c ∈ d.refs id, R (w c) (w' (φ c)) := fun c hc =>
      hw c (by simp only [asks, Node.asks, hpay]; exact hc) hc
    have hb : ∀ c ∈ b.references, R (w c) (w' (φ c)) := fun c hc =>
      hrefs c ((d.node id).body_refs_sub (by simpa [Node.body, Node.body?, hpay] using hc))
    rw [write_of_body hpay, write_of_body hp, hk, hbs]
    refine happ (happ (happ (hrefl _) ?_) (hrefl _))
      (writeBody_rel hrefl happ (fun b hb c hc => hrefs c (refs_of_branch hb hc)) hb)
    exact writeBranch_rel hrefl happ fun c hc => hb c (Body.mem_references.mpr (.inl hc))
  | naming m =>
    rw [hpay] at hp
    have hnaming : (d.node id).naming = m := by rw [Node.naming, Node.naming?, hpay]; rfl
    cases hr : m.rename with
    | some name =>
      -- a new name is written without looking at any node
      rw [write_of_rename (by rw [hnaming, hr]),
        write_of_rename (by rw [Node.naming, Node.naming?, hp]; exact hr)]
      exact hrefl name
    | none =>
      have hown : (d.children id).nodes ⊆ d.asks id →
          R (writeBranch w (d.children id)) (writeBranch w' (d'.children id')) := fun hasks => by
        have hchildren : d'.children id' = (d.children id).renumber φ := by
          rw [children, children, Node.children, Node.children, ← branches, ← branches, hbs]
          cases d.branches id <;> rfl
        rw [hchildren]
        exact writeBranch_rel hrefl happ fun c hc => hw c (hasks hc) (refs_of_children hc)
      rw [hnaming] at hlink
      rw [write_of_target hpay hr, write_of_target hp hr]
      cases ht : m.target with
      | none =>
        refine hown fun c hc => ?_
        simp only [asks, Node.asks, hpay, hr, ht]
        exact hc
      | some t =>
        by_cases hti : t = id
        · subst hti
          simp only [Option.bind_some, hid, if_true]
          refine hown fun c hc => ?_
          simp only [asks, Node.asks, hpay, hr, ht, beq_self_eq_true, Bool.or_true]
          exact hc
        · obtain ⟨t', hlt, hne, hwt⟩ := hlink t
            (by simp [asks, Node.asks, hpay, hr, ht, hti]) ht hti
          simp only [Option.bind_some, hlt, if_neg hti, if_neg hne]
          exact hwt

end Related

theorem asks_sub_uses (d : Document) (id : NodeId) : d.asks id ⊆ d.uses id := by
  intro c hc
  cases hp : (d.node id).payload with
  | none =>
    simp only [asks, Node.asks, hp] at hc
    obtain ⟨b, hb, hc⟩ := mem_flatMap.mp hc
    rw [uses, uses_eq_refs (by rw [Node.naming?, hp])]
    exact refs_of_branch hb hc
  | body b =>
    simp only [asks, Node.asks, hp] at hc
    rwa [uses, uses_eq_refs (by rw [Node.naming?, hp])]
  | naming m =>
    have hm : (d.node id).naming = m := by rw [Node.naming, Node.naming?, hp]; rfl
    simp only [asks, Node.asks, hp] at hc
    split_ifs at hc with hr
    · cases hc
    all_goals rw [uses, uses_of_no_rename (by simpa [hm] using hr), hm]
    · exact mem_append_left _ (refs_of_children hc)
    · exact mem_append_right _ hc

theorem writeDefault_related {R : String → String → Prop} {w : NodeId → String} (hrefl : ∀ s, R s s)
    (happ : ∀ {s s' t t'}, R s s' → R t t' → R (s ++ t) (s' ++ t'))
    (h : ∀ c ∈ d.uses id, R (w c) (w' c)) : R (d.writeDefault w id) (d.writeDefault w' id) := by
  refine writeDefault_rel hrefl happ rfl ?_ (?_ : _ = Payload.renumber (fun x => x) some _)
    (fun c hc _ => h c (asks_sub_uses d id hc)) rfl
    fun t ht _ hne => ⟨t, rfl, hne, h t (asks_sub_uses d id ht)⟩
  · exact ((map_congr_left fun b _ => Branch.renumber_id b).trans (map_id _)).symm
  · cases (d.node id).payload with
    | none => rfl
    | naming m => simp [Payload.renumber]
    | body b =>
      have hopening : Branch.renumber (fun x => x) b.opening = b.opening := Branch.renumber_id _
      simp [Payload.renumber, Body.renumber, hopening]

theorem writeDefault_congr {w : NodeId → String} (h : ∀ c ∈ d.uses id, w c = w' c) :
    d.writeDefault w id = d.writeDefault w' id :=
  writeDefault_related (R := Eq) (fun _ => rfl) (fun hs ht => hs ▸ ht ▸ rfl) h

end Rule

theorem writeDefault_of_node_eq (w : NodeId → String)
    (h : d'.node id = d.node id) : d'.writeDefault w id = d.writeDefault w id := by
  simp only [writeDefault, writeBranches, branches, h]

end Document

/-- A manner that looks at nothing but the node and what is written for the nodes it uses. -/
def Manner.Local (m : Manner) : Prop :=
  ∀ {d d' : Document} {w w' : NodeId → String} {id : NodeId},
    d'.node id = d.node id → (∀ c ∈ d.uses id, w c = w' c) → m d w id = m d' w' id

abbrev Manner.source : Manner := fun _ _ _ => none

theorem Manner.local_source : Manner.Local Manner.source :=
  fun _ _ => rfl

namespace Document

variable {m : Manner} {n k : Nat}

theorem writeNode_of_shallow (hm : Manner.Local m) (hs : Shallow d.uses n id) (hnk : n ≤ k) :
    d.writeNode m k id = d.writeNode m n id := by
  induction n generalizing id k with
  | zero => exact hs.elim
  | succ n ih =>
    obtain ⟨k, rfl⟩ : ∃ j, k = j + 1 := ⟨k - 1, by omega⟩
    have hw : ∀ c ∈ d.uses id, d.writeNode m k c = d.writeNode m n c := fun c hc =>
      ih (hs c hc) (by omega)
    simp only [writeNode]
    rw [hm rfl hw, writeDefault_congr hw]

theorem render_eq (hm : Manner.Local m) (hs : Shallow d.uses d.size id) :
    d.render m id = (m d (d.render m) id).getD (d.writeDefault (d.render m) id) := by
  have hw : ∀ c ∈ d.uses id, d.writeNode m (d.size - 1) c = d.render m c := fun c hc =>
    (writeNode_of_shallow hm (hs.child hc) (Nat.sub_le d.size 1)).symm
  obtain ⟨k, hk⟩ := hs.exists_succ
  rw [hk, Nat.add_sub_cancel] at hw
  conv_lhs => rw [render, hk, writeNode]
  rw [hm rfl hw, writeDefault_congr hw]

theorem sourceOf_eq (hs : Shallow d.uses d.size id) : d.sourceOf id = d.writeDefault d.sourceOf id :=
  render_eq Manner.local_source hs

theorem render_congr (hm : Manner.Local m) (hs : Shallow d.uses d.size id)
    (hs' : Shallow d'.uses d'.size id) (h : ∀ x, Reaches d.uses id x → d'.node x = d.node x) :
    d'.render m id = d.render m id := by
  have key : ∀ n id, Shallow d.uses n id → (∀ x, Reaches d.uses id x → d'.node x = d.node x) →
      Shallow d.uses d.size id → Shallow d'.uses d'.size id →
      d'.render m id = d.render m id := by
    intro n
    induction n with
    | zero => exact fun _ hn => hn.elim
    | succ n ih =>
      intro id hn h hs hs'
      have hw : ∀ c ∈ d.uses id, d.render m c = d'.render m c := fun c hc => by
        refine (ih c (hn c hc) (fun x hx => h x ((Reaches.child hc).trans hx)) ?_ ?_).symm
        · exact (hs.child hc).mono (Nat.sub_le _ _)
        · refine (hs'.child ?_).mono (Nat.sub_le _ _)
          rwa [uses, h id .refl]
      rw [render_eq hm hs, render_eq hm hs', ← hm (h id .refl) hw,
        writeDefault_of_node_eq _ (h id .refl), writeDefault_congr hw]
  exact key d.size id hs h hs hs'

end Document

end Stencil
