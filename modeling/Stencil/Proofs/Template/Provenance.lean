import Stencil.Proofs.Doc.Rebuilding
import Stencil.Proofs.Doc.Copying
import Stencil.Proofs.Lexing.Locations

/-!
# Where the text of a template comes from

The text of a template that is read as markup stands in nodes of two kinds. Content has been cut out
of a file, and its place says where. What has been put in place of a tag or a variable holds other
nodes, or the value of a variable. Everywhere else that markup is looked for there is no text between
the nodes. `Node.Traced` says so of one node. This module shows that **the edits of a document from
which all passes are put together keep its nodes traced**: new branches, copies, replacing a node
(`Traced.replaceNode`) and rebuilding (`Traced.rebuild`).
-/

namespace Stencil

open List

variable {d d' : Document} {l : List NodeId} {b : Branch} {k : Kind} {fragments : List Fragment}
  {i : Nat} {outside : NodeId → Option NodeId} {p : Place} {V V' : String → Prop}

abbrev Sources := String → String → Prop

/-- The text stands in one of the files, and the place is where. -/
def Sources.Hold (S : Sources) (p : Place) (s : String) : Prop :=
  ∃ file pre post, S file (pre ++ s ++ post) ∧ p = Place.after file pre

namespace Kind

def holders : List Kind := .root :: .rawOutput :: templateBlocks

def simple : List Kind := [.root, .content, .expanded, .variableTag]

def watched : List Kind := .content :: .expanded :: .variableTag :: holders

theorem simple_subset_watched : simple ⊆ watched := by decide

end Kind

namespace Branch

theorem Wordless.nil : Branch.Wordless [] := fun _ hs => by cases hs

theorem Wordless.singleton (x : NodeId) : Branch.Wordless [.node x] := fun s hs => by
  cases mem_singleton.mp hs

theorem Wordless.append {c : Branch} (hb : b.Wordless) (hc : c.Wordless) : Wordless (b ++ c) :=
  fun s hs => (mem_append.mp hs).elim (hb s) (hc s)

theorem Wordless.subset {c : Branch} (h : b.Wordless) (hs : c ⊆ b) : c.Wordless :=
  fun s hc => h s (hs hc)

theorem Wordless.reverse (h : b.Wordless) : Wordless b.reverse :=
  h.subset fun _ => mem_reverse.mp

theorem Wordless.flatten {bs : List Branch} (h : ∀ b ∈ bs, b.Wordless) : Wordless bs.flatten := by
  intro s hs
  obtain ⟨b, hb, hs⟩ := mem_flatten.mp hs
  exact h b hb s hs

theorem Wordless.foldl_stack (hb : b.Wordless)
    (hf : Branch.Wordless fragments) : Wordless (fragments.foldl stack b) := by
  refine List.foldlRecOn (motive := Wordless) fragments stack hb fun b hb f hmem => ?_
  cases f with
  | text s => exact absurd hmem (hf s)
  | node x => exact (Wordless.singleton x).append hb

theorem Wordless.ofFragments (h : Branch.Wordless fragments) : Wordless (ofFragments fragments) :=
  (Wordless.foldl_stack .nil h).reverse

/-- A branch of a node of some kind, at some place, holds what it may. -/
structure Suits (S : Sources) (V : String → Prop) (k : Kind) (p : Place) (b : Branch) : Prop where
  holder : k ∈ Kind.holders → b.Wordless
  /-- The text of content is in one of the files. -/
  content : k = .content → b.Wordless ∨ ∃ s, b = [.text s] ∧ S.Hold p s
  /-- The text that takes the place of a variable is one of some values. -/
  expanded : k = .expanded → b.Wordless ∨ ∃ s, b = [.text s] ∧ V s

variable {S : Sources} {b' : Branch}

theorem Wordless.suits (h : b.Wordless) : b.Suits S V k p :=
  ⟨fun _ => h, fun _ => .inl h, fun _ => .inl h⟩

theorem Suits.of_not_watched (h : k ∉ Kind.watched) : b.Suits S V k p where
  holder hk := absurd (mem_cons_of_mem _ (mem_cons_of_mem _ (mem_cons_of_mem _ hk))) h
  content hk := absurd (hk ▸ by decide) h
  expanded hk := absurd (hk ▸ by decide) h

theorem Suits.mono (h : b.Suits S V k p) (hV : ∀ s, V s → V' s) : b.Suits S V' k p where
  holder := h.holder
  content := h.content
  expanded hk := (h.expanded hk).imp_right fun hs => hs.imp fun _ hs => hs.imp_right (hV _)

theorem Suits.of_changed (h : b.Suits S V k p) (hnodes : b.Wordless → b'.Wordless)
    (htext : ∀ s, b = [.text s] → b' = [.text s] ∨ b' = []) : b'.Suits S V k p where
  holder hk := hnodes (h.holder hk)
  content hk := by
    rcases h.content hk with hb | ⟨s, hb, hs⟩
    · exact .inl (hnodes hb)
    · rcases htext s hb with hb' | rfl
      · exact .inr ⟨s, hb', hs⟩
      · exact .inl .nil
  expanded hk := by
    rcases h.expanded hk with hb | ⟨s, hb, hs⟩
    · exact .inl (hnodes hb)
    · rcases htext s hb with hb' | rfl
      · exact .inr ⟨s, hb', hs⟩
      · exact .inl .nil

theorem Suits.map {f : Fragment → Fragment} (h : b.Suits S V k p)
    (htext : ∀ s, f (.text s) = .text s) (hnode : ∀ x, ∃ y, f (.node x) = .node y) :
    Suits S V k p (b.map f) := by
  refine h.of_changed (fun hb s hs => ?_) fun s hb => .inl (by rw [hb, map_singleton, htext])
  obtain ⟨g, hg, hgs⟩ := mem_map.mp hs
  cases g with
  | text t => exact hb t hg
  | node x =>
    obtain ⟨y, hy⟩ := hnode x
    rw [hy] at hgs
    cases hgs

end Branch

/-! ### One node -/

/-- A node that is in one of the files and holds what it may. -/
structure Node.Traced (S : Sources) (V : String → Prop) (n : Node) : Prop where
  file : ∃ text, S n.place.path text
  plain : n.naming? = none
  bare : n.kind ∈ Kind.simple → n.payload = .none
  single : n.kind ∈ Kind.simple → n.branches.length = 1
  suits : ∀ b ∈ n.branches, b.Suits S V n.kind n.place

namespace Node.Traced

variable {S : Sources} {n : Node}

theorem mono (h : n.Traced S V) (hV : ∀ s, V s → V' s) : n.Traced S V' where
  file := h.file
  plain := h.plain
  bare := h.bare
  single := h.single
  suits b hb := (h.suits b hb).mono hV

theorem fresh (h : ∃ text, S p.path text) :
    Node.Traced S V { kind := k, place := p } where
  file := h
  plain := rfl
  bare _ := rfl
  single _ := rfl
  suits b hb := by
    rw [mem_singleton.mp hb]
    exact Branch.Wordless.nil.suits

theorem setBranch (h : n.Traced S V) (hi : n.kind ∈ Kind.simple → i < n.branches.length)
    (hb : b.Suits S V n.kind n.place) : (n.setBranch i b).Traced S V where
  file := h.file
  plain := h.plain
  bare := h.bare
  single hk := by
    have := hi hk
    have hlen : n.branches.length = 1 := h.single hk
    rw [Node.length_setBranch]
    omega
  suits c hc := by
    rcases mem_or_eq_of_mem_set hc with hc | rfl
    · rcases mem_append.mp hc with hc | hc
      · exact h.suits c hc
      · rw [eq_of_mem_replicate hc]
        exact Branch.Wordless.nil.suits
    · exact hb

theorem setChildren (h : n.Traced S V) (hb : b.Suits S V n.kind n.place) :
    Node.Traced S V { n with branches := [b] } where
  file := h.file
  plain := h.plain
  bare := h.bare
  single _ := rfl
  suits c hc := by
    rw [mem_singleton.mp hc]
    exact hb

theorem setKind (h : n.Traced S V) (hk : k ∉ Kind.watched) :
    Node.Traced S V { n with kind := k } where
  file := h.file
  plain := h.plain
  bare hk' := absurd (Kind.simple_subset_watched hk') hk
  single hk' := absurd (Kind.simple_subset_watched hk') hk
  suits _ _ := .of_not_watched hk

theorem expand (h : n.Traced S V) (hk : n.kind ∈ Kind.simple) (hb : b.Suits S V .expanded n.place) :
    Node.Traced S V { n with kind := .expanded, branches := [b] } where
  file := h.file
  plain := h.plain
  bare _ := h.bare hk
  single _ := rfl
  suits c hc := by
    rw [mem_singleton.mp hc]
    exact hb

theorem renumber (h : n.Traced S V) (f : NodeId → NodeId) (target : NodeId → Option NodeId) :
    (Document.renumber f target n).Traced S V where
  file := h.file
  plain := by
    have hplain := h.plain
    rw [Node.naming?] at hplain ⊢
    rw [Document.renumber]
    cases hp : n.payload with
    | none => rfl
    | body b => rfl
    | naming m => rw [hp] at hplain; cases hplain
  bare hk := by
    rw [Document.renumber, h.bare hk]
  single hk := by
    have hlen : n.branches.length = 1 := h.single hk
    rw [Document.renumber, length_map]
    exact hlen
  suits b hb := by
    obtain ⟨c, hc, rfl⟩ := mem_map.mp hb
    exact (h.suits c hc).map (fun _ => rfl) fun x => ⟨f x, rfl⟩

end Node.Traced

/-! ### Documents -/

namespace Document

variable {S : Sources} {d'' s : Document} {L M : List NodeId}
  {c id x y : NodeId} {n : Nat} {f : Node → Node}

def Traced (S : Sources) (V : String → Prop) (d : Document) : Prop :=
  ∀ x < d.size, (d.node x).Traced S V

/-- No node is gone, and each has the kind it had, unless something has been put in place of a
variable. -/
structure KeepsKinds (d d' : Document) : Prop where
  size_le : d.size ≤ d'.size
  kind_eq : ∀ x < d.size, d'.kind x = d.kind x ∨ d.kind x = .variableTag ∧ d'.kind x = .expanded

namespace KeepsKinds

theorem refl (d : Document) : d.KeepsKinds d := ⟨le_refl _, fun _ _ => .inl rfl⟩

theorem trans (h : d.KeepsKinds d') (h' : d'.KeepsKinds d'') : d.KeepsKinds d'' where
  size_le := le_trans h.size_le h'.size_le
  kind_eq x hx := by
    rcases h.kind_eq x hx with heq | ⟨hvar, hexp⟩
    · rw [← heq]
      exact h'.kind_eq x (lt_of_lt_of_le hx h.size_le)
    · rcases h'.kind_eq x (lt_of_lt_of_le hx h.size_le) with heq | ⟨hvar', -⟩
      · exact .inr ⟨hvar, heq.trans hexp⟩
      · rw [hexp] at hvar'
        cases hvar'

theorem kind_of_ne (h : d.KeepsKinds d') (hx : x < d.size) (hk : d.kind x ≠ .variableTag) :
    d'.kind x = d.kind x :=
  (h.kind_eq x hx).resolve_right fun hvar => hk hvar.1

theorem modify (hf : ∀ n : Node, (f n).kind = n.kind) : d.KeepsKinds (d.modify id f) :=
  ⟨le_of_eq (size_modify ..).symm, fun _ _ => .inl (modify_of_eq Node.kind (hf _))⟩

theorem setBranch : d.KeepsKinds (d.setBranch id i b) := .modify fun _ => rfl

theorem modify_new (h : d.KeepsKinds d') (hid : d.size ≤ id) : d.KeepsKinds (d'.modify id f) where
  size_le := by rw [size_modify]; exact h.size_le
  kind_eq x hx := by
    rw [kind, modify_ne (ne_of_lt (lt_of_lt_of_le hx hid))]
    exact h.kind_eq x hx

theorem create (k : Kind) (p : Place) : d.KeepsKinds (d.create k p).2 where
  size_le := by rw [size_create]; exact Nat.le_succ _
  kind_eq x hx := .inl (by rw [kind, create_of_lt hx]; rfl)

theorem adopt :
    d.KeepsKinds (d.adopt s l outside).2 where
  size_le := by rw [size_adopt]; exact Nat.le_add_right _ _
  kind_eq x hx := .inl (by rw [kind, node_adopt_of_lt hx]; rfl)

end KeepsKinds

namespace Traced

section

variable (h : d.Traced S V)
include h

theorem mono (hV : ∀ s, V s → V' s) : d.Traced S V' :=
  fun x hx => (h x hx).mono hV

theorem modify (hf : id < d.size → (f (d.node id)).Traced S V) : (d.modify id f).Traced S V := by
  intro x hx
  rw [size_modify] at hx
  by_cases hid : x = id
  · subst hid
    rw [modify_self hx]
    exact hf hx
  · rw [modify_ne hid]
    exact h x hx

theorem create (k : Kind) (hp : ∃ text, S p.path text) : (d.create k p).2.Traced S V := by
  intro x hx
  by_cases hnew : x = d.size
  · subst hnew
    rw [create_self]
    exact .fresh hp
  · rw [node_create_ne hnew]
    rw [size_create] at hx
    exact h x (Nat.lt_of_le_of_ne (Nat.le_of_lt_succ hx) hnew)

theorem adopt (hs : s.Traced S V) (hl : ∀ x ∈ l, x < s.size) : (d.adopt s l outside).2.Traced S V := by
  intro x hx
  by_cases hlt : x < d.size
  · rw [node_adopt_of_lt hlt]
    exact h x hlt
  · obtain ⟨i, rfl⟩ := Nat.exists_eq_add_of_le (not_lt.mp hlt)
    have hi : i < l.length := by
      rw [size_adopt] at hx
      omega
    rw [node_adopt_add hi]
    exact (hs _ (hl _ (getElem_mem hi))).renumber _ _

theorem setBranch (hi : d.kind id ∈ Kind.simple → i < (d.branches id).length)
    (hb : b.Suits S V (d.kind id) (d.place id)) : (d.setBranch id i b).Traced S V :=
  h.modify fun hlt => (h id hlt).setBranch hi hb

theorem setChildren (hb : b.Suits S V (d.kind id) (d.place id)) : (d.setChildren id b).Traced S V :=
  h.modify fun hlt => (h id hlt).setChildren hb

theorem wordless (hk : d.kind x = k) (hmem : k ∈ Kind.holders) : (d.node x).Wordless := by
  subst hk
  by_cases hx : x < d.size
  · exact fun b hb => ((h x hx).suits b hb).holder hmem
  · rw [node_of_le (not_lt.mp hx)]
    intro b hb
    rw [mem_singleton.mp hb]
    exact .nil

theorem wordless_branch (hk : d.kind x = k)
    (hmem : k ∈ Kind.holders) (i : Nat) : (d.branch x i).Wordless :=
  Wordless.branch (h.wordless hk hmem) i

theorem wordless_children (hk : d.kind x = k) (hmem : k ∈ Kind.holders) : (d.children x).Wordless := by
  rw [children, ← Node.branch_zero]
  exact h.wordless_branch hk hmem 0

theorem length_branches (hk : d.kind x ∈ Kind.simple) : (d.branches x).length = 1 := by
  by_cases hx : x < d.size
  · exact (h x hx).single hk
  · rw [branches, node_of_le (not_lt.mp hx)]
    rfl

theorem setBranch_zero (hb : b.Suits S V (d.kind id) (d.place id)) : (d.setBranch id 0 b).Traced S V :=
  h.setBranch (fun hk => by rw [h.length_branches hk]; exact Nat.one_pos) hb

theorem prepend (hk : d.kind id = k) (hmem : k ∈ Kind.holders) (hf : Branch.Wordless fragments) :
    (d.prepend id fragments).Traced S V ∧ d.KeepsKinds (d.prepend id fragments) := by
  rw [Document.prepend]
  have hnew : Branch.Wordless (fragments ++ d.branch id 0) := hf.append (h.wordless_branch hk hmem 0)
  exact ⟨h.setBranch_zero hnew.suits, .setBranch⟩

end

end Traced

/-! ### Copies -/

section Copies

theorem Grove.lt_of_mem_reached (h : s.Grove M) (hx : x < s.size) :
    ∀ y ∈ s.reached x, y < s.size := fun _ hy =>
  h.lt_of_reaches hx ((mem_reached (h.shallow hx)).mp hy)

theorem Traced.graft (h : d.Traced S V) (hs : s.Traced S V) (hg : s.Grove M) (hx : x < s.size) :
    (d.graft s x).2.Traced S V :=
  h.adopt hs (hg.lt_of_mem_reached hx)

theorem kind_graft (hg : s.Grove M) (hx : x < s.size) : (d.graft s x).2.kind d.size = s.kind x := by
  have hhead := head?_reached (hg.shallow hx)
  obtain ⟨l, hl⟩ : ∃ l, s.reached x = x :: l := by
    cases hr : s.reached x with
    | nil => rw [hr] at hhead; cases hhead
    | cons y l => rw [hr] at hhead; cases hhead; exact ⟨l, rfl⟩
  rw [Document.graft, hl]
  have hnode : (d.adopt s (x :: l) fun _ => none).2.node (d.size + 0) = _ :=
    node_adopt_add (Nat.succ_pos _)
  rw [Nat.add_zero] at hnode
  rw [kind, hnode]
  rfl

theorem Traced.duplicateBranch (h : d.Traced S V) (hg : d.Grove L)
    (hb : ∀ c ∈ b.nodes, c < d.size) : (d.duplicateBranch b).2.Traced S V := by
  refine (d.duplicateBranch_induction (I := fun b e => d.size ≤ e.size ∧ e.Grove (b.nodes ++ L) ∧
    e.Traced S V) ⟨le_refl _, hg, h⟩ (fun _ hI => hI) fun {b e x} hx ⟨hle, hg, ht⟩ => ?_).2.2
  have hlt := lt_of_lt_of_le (hb x hx) hle
  obtain ⟨hg', hgrown⟩ := hg.duplicate hlt
  exact ⟨le_trans hle hgrown.size_le, hg', ht.adopt ht (hg.lt_of_mem_reached hlt)⟩

theorem wordless_duplicateBranch (h : b.Wordless) (d : Document) :
    (d.duplicateBranch b).1.Wordless := by
  have hrev := d.duplicateBranch_induction (I := fun b _ => b.Wordless) .nil
    (fun {_ _ s} hs _ => absurd hs (h s)) fun _ hI => .append (.singleton _) hI
  simpa using hrev.reverse

end Copies

/-! ### Replacing a node -/

theorem Traced.suits_branch (h : d.Traced S V) (id : NodeId) (i : Nat) :
    (d.branch id i).Suits S V (d.kind id) (d.place id) := by
  by_cases hi : i < (d.branches id).length
  · by_cases hx : id < d.size
    · exact (h id hx).suits _ (branch_mem hi)
    · have hnode := node_of_le (not_lt.mp hx)
      have hnil : d.branch id i = [] := by
        rw [branches, hnode] at hi
        rw [branch, hnode, Nat.lt_one_iff.mp hi]
        rfl
      rw [hnil]
      exact Branch.Wordless.nil.suits
  · have hnil : d.branch id i = [] := getD_eq_default _ _ (not_lt.mp hi)
    rw [hnil]
    exact Branch.Wordless.nil.suits

theorem Traced.replaceNode (h : d.Traced S V)
    (hf : Branch.Wordless fragments) : (d.replaceNode x fragments).2.Traced S V ∧
      d.KeepsKinds (d.replaceNode x fragments).2 := by
  rw [Document.replaceNode]
  cases hslot : d.locate x with
  | none => exact ⟨h, .refl d⟩
  | some slot =>
    have hget := (locateBelow_eq_some hslot).2
    have hi : slot.branch < (d.branches slot.owner).length := by
      by_contra hi
      have hnil : d.branch slot.owner slot.branch = [] :=
        getD_eq_default _ _ (not_lt.mp hi)
      rw [hnil] at hget
      cases hget
    refine ⟨h.setBranch (fun _ => hi)
      ((h.suits_branch slot.owner slot.branch).of_changed (fun hb => ?_) fun s hb => ?_),
      .setBranch⟩
    · exact .ofFragments (.append (.append (hb.subset (take_subset _ _)) hf)
        (hb.subset (drop_subset _ _)))
    · -- text that stands alone has no node to be replaced
      rw [hb] at hget
      cases mem_singleton.mp (mem_of_getElem? hget)

/-! ### Rebuilding -/

structure Labelled (d d' : Document) : Prop where
  size_eq : d'.size = d.size
  kind_eq : ∀ x, d'.kind x = d.kind x
  place_eq : ∀ x, d'.place x = d.place x

namespace Labelled

theorem refl (d : Document) : d.Labelled d := ⟨rfl, fun _ => rfl, fun _ => rfl⟩

theorem trans (h : d.Labelled d') (h' : d'.Labelled d'') : d.Labelled d'' :=
  ⟨h'.size_eq.trans h.size_eq, fun x => (h'.kind_eq x).trans (h.kind_eq x),
    fun x => (h'.place_eq x).trans (h.place_eq x)⟩

theorem modify (hk : ∀ n : Node, (f n).kind = n.kind) (hp : ∀ n : Node, (f n).place = n.place) :
    d.Labelled (d.modify id f) :=
  ⟨size_modify _ _ _, fun _ => modify_of_eq Node.kind (hk _),
    fun _ => modify_of_eq Node.place (hp _)⟩

theorem setBranch : d.Labelled (d.setBranch id i b) := .modify (fun _ => rfl) fun _ => rfl

theorem keepsKinds (h : d.Labelled d') : d.KeepsKinds d' :=
  ⟨le_of_eq h.size_eq.symm, fun x _ => .inl (h.kind_eq x)⟩

end Labelled

section Rebuild

variable {change : NodeId → Document → List Fragment × Document}
  {below : NodeId → Document → Document}

/-- A change of a document that leaves kinds and places alone and keeps nodes traced. -/
def Tracing (S : Sources) (V : String → Prop) (f : Document → Document) : Prop :=
  ∀ {d : Document}, d.Traced S V → (f d).Traced S V ∧ d.Labelled (f d)

section

variable (hchange : ∀ x, Tracing S V fun d => (change x d).2)
  (hnodes : ∀ {x : NodeId} {d : Document}, d.Traced S V → Branch.Wordless (change x d).1)
include hchange hnodes

theorem Traced.foldl_replaceFragment (hbelow : ∀ x, Tracing S V (below x)) (built : Branch × Document)
    (h : built.2.Traced S V) :
    (b.foldl (replaceFragment change below) built).2.Traced S V ∧
      built.2.Labelled (b.foldl (replaceFragment change below) built).2 ∧
      (b.Wordless → Branch.Wordless built.1 →
        Branch.Wordless (b.foldl (replaceFragment change below) built).1) := by
  induction b generalizing built with
  | nil => exact ⟨h, .refl _, fun _ hb => hb⟩
  | cons f b ih =>
    rw [foldl_cons]
    cases f with
    | text s =>
      obtain ⟨ht, hl, -⟩ := ih (replaceFragment change below built (.text s)) h
      exact ⟨ht, hl, fun hw => absurd mem_cons_self (hw s)⟩
    | node c =>
      obtain ⟨ht1, hl1⟩ := hbelow c h
      obtain ⟨ht2, hl2⟩ := hchange c ht1
      obtain ⟨ht, hl, hw⟩ := ih (replaceFragment change below built (.node c)) ht2
      refine ⟨ht, (hl1.trans hl2).trans hl, fun hrest hb => hw hrest.tail ?_⟩
      exact hb.foldl_stack (hnodes ht1)

theorem Traced.rebuildBranch (hbelow : ∀ x, Tracing S V (below x)) (h : d.Traced S V)
    (hi : d.kind id ∈ Kind.simple → i = 0) :
    (rebuildBranch change below id d i).Traced S V ∧
      d.Labelled (Document.rebuildBranch change below id d i) := by
  have hlt : ∀ {e : Document}, e.Traced S V → e.kind id = d.kind id →
      e.kind id ∈ Kind.simple → i < (e.branches id).length := fun he hk hs => by
    rw [he.length_branches hs, hi (hk ▸ hs)]
    exact Nat.one_pos
  have h0 : (d.setBranch id i []).Traced S V :=
    h.setBranch (hlt h rfl) Branch.Wordless.nil.suits
  have hl0 : d.Labelled (d.setBranch id i []) := .setBranch
  obtain ⟨ht, hl, hw⟩ := foldl_replaceFragment hchange hnodes hbelow (b := d.branch id i)
    ([], d.setBranch id i []) h0
  have hl' := hl0.trans hl
  refine ⟨ht.setBranch (hlt ht (hl'.kind_eq id)) ?_, hl'.trans .setBranch⟩
  rw [hl'.kind_eq, hl'.place_eq]
  refine (h.suits_branch id i).of_changed (fun hb => (hw hb .nil).reverse) fun s hb => ?_
  rw [hb]
  by_cases hs : s = ""
  · subst hs
    exact .inr rfl
  · refine .inl ?_
    simp [replaceFragment, Branch.stack, hs]

theorem Traced.rebuild (n : Nat) (id : NodeId) : Tracing S V (Document.rebuild change n id) := by
  induction n generalizing id with
  | zero => exact fun h => ⟨h, .refl _⟩
  | succ n ih =>
    intro d h
    rw [rebuild_succ]
    refine List.foldlRecOn (motive := fun e => e.Traced S V ∧ d.Labelled e) _ _ ⟨h, .refl d⟩
      fun e ⟨he, hl⟩ i hi => ?_
    have hzero : e.kind id ∈ Kind.simple → i = 0 := fun hk => by
      rw [mem_range, h.length_branches (hl.kind_eq id ▸ hk)] at hi
      exact Nat.lt_one_iff.mp hi
    obtain ⟨he', hl'⟩ := he.rebuildBranch hchange hnodes ih hzero
    exact ⟨he', hl.trans hl'⟩

end

theorem Traced.removeNodes (h : d.Traced S V) (id : NodeId) (removed : List NodeId) :
    (d.removeNodes id removed).Traced S V ∧ d.Labelled (d.removeNodes id removed) := by
  rw [Document.removeNodes]
  split_ifs
  · exact ⟨h, .refl d⟩
  · refine rebuild (fun _ _ h => ⟨h, .refl _⟩) (fun {x _} _ => ?_) d.size id h
    dsimp only
    split_ifs
    · exact .nil
    · exact .singleton x

theorem Traced.collapseKind (h : d.Traced S V) (id : NodeId) (hk : k ∈ Kind.holders) :
    (d.collapseKind id k).Traced S V ∧ d.Labelled (d.collapseKind id k) := by
  refine rebuild (fun x e he => ?_) (fun {x e} he => ?_) d.size id h
  · dsimp only
    split_ifs
    · exact ⟨he.setChildren Branch.Wordless.nil.suits, .modify (fun _ => rfl) fun _ => rfl⟩
    · exact ⟨he, .refl e⟩
  · split_ifs with hx
    · exact .flatten (he.wordless hx hk)
    · exact .singleton x

end Rebuild

end Document

/-! ### Templates -/

namespace Template

open Document

variable {S : Sources}

structure Sourced (S : Sources) (V : String → Prop) (d : Document) : Prop where
  grove : d.Grove [root]
  traced : d.Traced S V
  root_kind : d.kind root = .root

namespace Sourced

theorem root_lt (h : Sourced S V d) : root < d.size := h.grove.lt_head

theorem mono (h : Sourced S V d) (hV : ∀ s, V s → V' s) : Sourced S V' d :=
  ⟨h.grove, h.traced.mono hV, h.root_kind⟩

theorem step (h : Sourced S V d) (hg : d'.Grove [root]) (ht : d'.Traced S V ∧ d.KeepsKinds d') :
    Sourced S V d' where
  grove := hg
  traced := ht.1
  root_kind := (ht.2.kind_of_ne h.root_lt (by rw [h.root_kind]; decide)).trans h.root_kind

end Sourced

end Template

end Stencil
