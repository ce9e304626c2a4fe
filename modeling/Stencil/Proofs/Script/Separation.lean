import Stencil.Script.Renaming
import Stencil.Proofs.Doc.Store
import Stencil.Proofs.Outcome

/-!
# Spaces between braces

Separating the braces of a script puts a space in front of the content of some of its scopes and changes
nothing else. The space is a node of its own; in a second document with the same scopes the same can be
done with plain text (`openWithSpace`).
-/

namespace Stencil

open Document List Node

variable {a d : Document} {x : NodeId} {isSpace : NodeId → Prop} {w w' : NodeId → String}

namespace Script

def openWithSpace (scopes : List NodeId) (d : Document) : Document :=
  scopes.foldl (fun d scope => d.prepend scope [.text " "]) d

/-- Two branches are alike but for spaces in front, which are nodes in the one and text in the
other. -/
inductive Padding (isSpace : NodeId → Prop) : Branch → Branch → Prop where
  | same (b : Branch) : Padding isSpace b b
  | space {s : NodeId} {b b' : Branch} : isSpace s → Padding isSpace b b' →
      Padding isSpace (.node s :: b) (.text " " :: b')

/-- Two nodes are alike but for spaces in front of their branches. -/
structure Padded (isSpace : NodeId → Prop) (n n' : Node) : Prop where
  kind_eq : n'.kind = n.kind
  payload_eq : n'.payload = n.payload
  branches : List.Forall₂ (Padding isSpace) n.branches n'.branches

section Padding

variable {isSpace' : NodeId → Prop} {n n' : Node} {c b b' : Branch}

theorem Padding.mono (hsub : ∀ s, isSpace s → isSpace' s) (h : Padding isSpace b b') :
    Padding isSpace' b b' := by
  induction h with
  | same b => exact .same b
  | space hs _ ih => exact .space (hsub _ hs) ih

theorem Padding.mem_nodes (h : Padding isSpace b b') (hx : x ∈ b.nodes) : x ∈ b'.nodes ∨ isSpace x := by
  induction h with
  | same b => exact .inl hx
  | space hs _ ih =>
    rcases mem_cons.mp hx with rfl | hx
    · exact .inr hs
    · exact ih hx

theorem Padding.writeBranch_eq (h : Padding isSpace b b')
    (hw : ∀ x ∈ b'.nodes, w x = w' x) (hs : ∀ s, isSpace s → w s = " ") :
    writeBranch w b = writeBranch w' b' := by
  induction h with
  | same b => exact branch_congr hw
  | space hspace _ ih =>
    rw [branch_cons_node, branch_cons_text, hs _ hspace, ih hw]

theorem Padded.refl (isSpace : NodeId → Prop) (n : Node) : Padded isSpace n n :=
  ⟨rfl, rfl, forall₂_same.mpr fun b _ => .same b⟩

theorem Padded.mono (hsub : ∀ s, isSpace s → isSpace' s) (h : Padded isSpace n n') :
    Padded isSpace' n n' :=
  ⟨h.kind_eq, h.payload_eq, h.branches.imp fun _ _ hb => hb.mono hsub⟩

theorem Padded.prepend {s : NodeId} (h : Padded isSpace n n') (hs : isSpace s) :
    Padded isSpace (n.setBranch 0 ([.node s] ++ n.branch 0))
      (n'.setBranch 0 ([.text " "] ++ n'.branch 0)) := by
  rw [setBranch_zero, setBranch_zero, branch_zero, branch_zero, Node.children, Node.children]
  refine ⟨h.kind_eq, h.payload_eq, ?_⟩
  have hb := h.branches
  cases hn : n.branches with
  | nil =>
    rw [hn, forall₂_nil_left_iff] at hb
    rw [hb]
    exact .cons (.space hs (.same _)) .nil
  | cons b bs =>
    rw [hn] at hb
    obtain ⟨b', bs', hbb, hbs, hn'⟩ := forall₂_cons_left_iff.mp hb
    rw [hn']
    exact .cons (.space hs hbb) hbs

theorem references_prepend_text (n : Node) (t : String) :
    (n.setBranch 0 ([.text t] ++ n.branch 0)).references = n.references := by
  rw [setBranch_zero, branch_zero, Node.children, Node.references, Node.references]
  cases n.branches <;> rfl

theorem Padded.mem_references (h : Padded isSpace n n') (hx : x ∈ n.references) :
    x ∈ n'.references ∨ isSpace x := by
  have hbody : n'.body = n.body := by rw [Node.body, Node.body, Node.body?, Node.body?, h.payload_eq]
  rw [Node.mem_references] at hx ⊢
  rw [hbody]
  rcases hx with hx | hx | ⟨b, hb, hx⟩ | hx
  · exact .inl (.inl hx)
  · exact .inl (.inr (.inl hx))
  · obtain ⟨b', hb', hpad⟩ := exists_of_mem_forall₂ h.branches.flip hb
    rcases hpad.mem_nodes hx with hx | hx
    · exact .inl (.inr (.inr (.inl ⟨b', hb', hx⟩)))
    · exact .inr hx
  · exact .inl (.inr (.inr (.inr hx)))

theorem map_writeBranch_eq_of_padding {bs bs' : List Branch}
    (h : List.Forall₂ (Padding isSpace) bs bs') (hw : ∀ b ∈ bs', ∀ c ∈ b.nodes, w c = w' c)
    (hs : ∀ s, isSpace s → w s = " ") :
    bs.map (writeBranch w) = bs'.map (writeBranch w') := by
  induction h with
  | nil => rfl
  | cons hb _ ih =>
    obtain ⟨hw0, hw⟩ := forall_mem_cons.mp hw
    rw [map_cons, map_cons, hb.writeBranch_eq hw0 hs, ih hw]

theorem Padded.writeDefault_eq {d' : Document}
    (h : Padded isSpace (d.node x) (d'.node x)) (hn : (d'.node x).naming? = none)
    (hw : ∀ c ∈ d'.refs x, w c = w' c) (hs : ∀ s, isSpace s → w s = " ") :
    d.writeDefault w x = d'.writeDefault w' x :=
  Document.writeDefault_eq h.kind_eq.symm h.payload_eq.symm hn
    (map_writeBranch_eq_of_padding h.branches
      (fun _ hb c hc => hw c (refs_of_branch hb hc)) hs)
    fun c hc => hw c ((d'.node x).body_refs_sub hc)

end Padding

structure IsText (n : Node) (text : String) : Prop where
  delimiters_eq : n.kind.delimiters = none
  payload_eq : n.payload = .none
  branches_eq : n.branches = [[.text text]]

section IsText

variable {text : String}

theorem IsText.uses_eq (h : IsText (d.node x) text) : d.uses x = [] := by
  have hm : (d.node x).naming? = none := by rw [Node.naming?, h.payload_eq]
  rw [Document.uses, Node.uses_eq_refs hm, Node.references, Node.body, Node.body?,
    h.payload_eq, h.branches_eq]
  rfl

theorem shallow_of_uses_eq_nil (h : d.uses x = []) (hx : x < d.size) : Shallow d.uses d.size x := by
  refine Shallow.mono (n := 1) (fun c hc => ?_) (Nat.one_le_of_lt hx)
  rw [h] at hc
  cases hc

theorem IsText.lt_size (h : IsText (d.node x) text) : x < d.size := by
  by_contra hx
  have hb := h.branches_eq
  rw [node_of_le (not_lt.mp hx)] at hb
  cases hb

theorem IsText.sourceOf_eq (h : IsText (d.node x) text) : d.sourceOf x = text := by
  have hk : (d.kind x).delimiters = none := h.delimiters_eq
  rw [Document.sourceOf_eq (shallow_of_uses_eq_nil h.uses_eq h.lt_size),
    write_of_none h.payload_eq, hk, Document.writeBranches, Document.branches,
    h.branches_eq]
  simp

end IsText

/-- A node of the second document that the first does not have. -/
def IsNew (d d' : Document) (x : NodeId) : Prop := d.size ≤ x ∧ x < d'.size

/-- The first two documents have become the second two by spaces put into scopes. -/
structure Separated (a b a' b' : Document) : Prop where
  size_le : a.size ≤ a'.size
  size_eq : b'.size = b.size
  payload_eq : ∀ x < a.size, (a'.node x).payload = (a.node x).payload
  refs_eq : ∀ x, b'.refs x = b.refs x
  other : ∀ x < a.size, a.kind x ≠ .scope → a'.node x = a.node x ∧ b'.node x = b.node x
  scope : ∀ x < a.size, a.kind x = .scope → Padded (IsNew a a') (a'.node x) (b'.node x)
  space : ∀ x, IsNew a a' x → IsText (a'.node x) " "

theorem Separated.refl {b : Document} (hs : ∀ x, a.kind x = .scope → b.node x = a.node x) :
    Separated a b a b := by
  refine ⟨le_refl _, rfl, fun _ _ => rfl, fun _ => rfl, fun _ _ _ => ⟨rfl, rfl⟩,
    fun x _ hk => ?_, fun x hx => ?_⟩
  · rw [hs x hk]
    exact .refl _ _
  · exact absurd hx.2 (not_lt.mpr hx.1)

def openScope (d : Document) (scope : NodeId) : Document :=
  (((d.create .requiredSpace (d.place scope)).2.appendText d.size " ").prepend scope
    [.node d.size])

variable {b a' b' : Document} {scope : NodeId}

theorem openScope_scope (h : scope < a.size) : (openScope a scope).node scope =
    (a.node scope).setBranch 0 ([.node a.size] ++ (a.node scope).branch 0) := by
  have hsize : scope ≠ a.size := ne_of_lt h
  have hnode : ((a.create .requiredSpace (a.place scope)).2.appendText a.size " ").node scope =
      a.node scope := by
    rw [Document.appendText, if_neg (by decide), Document.append, modify_ne hsize, create_of_lt h]
  rw [openScope, Document.prepend, Document.setBranch, modify_self, Document.branch, hnode]
  rw [Document.appendText, if_neg (by decide), Document.append, size_modify, size_create]
  exact Nat.lt_succ_of_lt h

theorem openScope_of_lt (h : x < a.size) (hx : x ≠ scope) : (openScope a scope).node x = a.node x := by
  rw [openScope, Document.prepend, Document.setBranch, modify_ne hx,
    Document.appendText, if_neg (by decide), Document.append,
    modify_ne (ne_of_lt h), create_of_lt h]

theorem isText_openScope (h : scope ≠ a.size) :
    IsText ((openScope a scope).node a.size) " " := by
  rw [openScope, Document.prepend, Document.setBranch, modify_ne h.symm,
    Document.appendText, if_neg (by decide), Document.append, modify_self (by simp),
    create_self]
  exact ⟨rfl, rfl, rfl⟩

theorem size_openScope : (openScope a scope).size = a.size + 1 := by
  simp [openScope, Document.prepend, Document.setBranch, Document.appendText, Document.append]

theorem Separated.openScope (h : Separated a b a' b') (hlt : scope < a.size)
    (hb : a.size = b.size) (hk : a.kind scope = .scope) :
    Separated a b (openScope a' scope) (b'.prepend scope [.text " "]) := by
  have hlt' : scope < a'.size := lt_of_lt_of_le hlt h.size_le
  have hnew : ∀ s, IsNew a a' s → IsNew a (Script.openScope a' scope) s := fun s hs =>
    ⟨hs.1, by rw [size_openScope]; exact Nat.lt_succ_of_lt hs.2⟩
  refine ⟨?_, ?_, fun x hx => ?_, fun x => ?_, fun x hx hkx => ?_, fun x hx hkx => ?_,
    fun x hx => ?_⟩
  · rw [size_openScope]
    exact Nat.le_succ_of_le h.size_le
  · rw [Document.prepend, Document.setBranch, size_modify, h.size_eq]
  · rw [← h.payload_eq x hx]
    by_cases hne : x = scope
    · rw [hne, openScope_scope hlt']
      rfl
    · rw [openScope_of_lt (lt_of_lt_of_le hx h.size_le) hne]
  · rw [← h.refs_eq x]
    exact modify_of_eq Node.references (references_prepend_text _ _)
  · have hne : x ≠ scope := by
      rintro rfl
      exact hkx hk
    rw [openScope_of_lt (lt_of_lt_of_le hx h.size_le) hne, Document.prepend,
      Document.setBranch, modify_ne hne]
    exact h.other x hx hkx
  · have hpad := (h.scope x hx hkx).mono hnew
    rw [Document.prepend, Document.setBranch]
    by_cases hne : x = scope
    · subst hne
      rw [openScope_scope hlt', modify_self (by rw [h.size_eq, ← hb]; exact hx)]
      exact hpad.prepend ⟨h.size_le, by rw [size_openScope]; exact Nat.lt_succ_self _⟩
    · rw [openScope_of_lt (lt_of_lt_of_le hx h.size_le) hne, modify_ne hne]
      exact hpad
  · obtain ⟨hle, hx⟩ := hx
    rw [size_openScope] at hx
    rcases Nat.lt_succ_iff_lt_or_eq.mp hx with hx | rfl
    · rw [openScope_of_lt hx (ne_of_gt (lt_of_lt_of_le hlt hle))]
      exact h.space x ⟨hle, hx⟩
    · exact isText_openScope (ne_of_lt hlt')

theorem exists_separated_foldl (hb : a.size = b.size) {l : List NodeId}
    (hl : ∀ s ∈ l, s < a.size ∧ a.kind s = .scope) (h : Separated a b a' b') :
    ∃ spaced, spaced.Sublist l ∧ Separated a b
      (l.foldl (fun d s => if opensWithBrace d s then Script.openScope d s else d) a')
      (openWithSpace spaced b') := by
  induction l generalizing a' b' with
  | nil => exact ⟨[], List.Sublist.refl _, h⟩
  | cons s l ih =>
    obtain ⟨⟨hlt, hk⟩, hl⟩ := forall_mem_cons.mp hl
    rw [foldl_cons]
    by_cases ho : opensWithBrace a' s = true
    · rw [if_pos ho]
      obtain ⟨spaced, hsub, hsep⟩ := ih hl (h.openScope hlt hb hk)
      exact ⟨s :: spaced, hsub.cons_cons s, hsep⟩
    · rw [if_neg ho]
      obtain ⟨spaced, hsub, hsep⟩ := ih hl h
      exact ⟨spaced, hsub.cons s, hsep⟩

theorem exists_separated (script : NodeId) (hb : a.size = b.size)
    (hl : ∀ s ∈ a.descendants script [.scope] [], s < a.size)
    (hs : ∀ x, a.kind x = .scope → b.node x = a.node x) :
    ∃ spaced, spaced.Sublist (a.descendants script [.scope] []) ∧
      Separated a b (separateBraces a script) (openWithSpace spaced b) := by
  refine exists_separated_foldl hb (fun s hmem => ⟨hl s hmem, ?_⟩) (.refl hs)
  simpa [hasKind] using (mem_filter.mp hmem).2

/-- How a node of a renamed script corresponds to the node of the script that is spelled by the new
names, where `d` is the script before both. -/
inductive Twin (d a b : Document) (isSpace : NodeId → Prop) (x : NodeId) : Prop where
  | renamed {name : String} : a.kind x = .identifier → (a.node x).naming.rename = some name →
      IsText (b.node x) name → Twin d a b isSpace x
  /-- It follows a node that has a new name. -/
  | linked {t : NodeId} {name : String} : (a.node x).payload = .naming { target := some t } →
      t ≠ x → a.kind t = .identifier → (a.node t).naming.rename = some name →
      a.refs x ⊆ d.refs x → IsText (b.node x) name → Twin d a b isSpace x
  | padded : Padded isSpace (a.node x) (b.node x) → b.refs x = d.refs x →
      (b.node x).naming? = none → Twin d a b isSpace x

section Twin

variable {top c : NodeId} {name : String} {n : Nat}

theorem uses_eq_nil_of_rename (hk : a.kind x = .identifier)
    (h : (a.node x).naming.rename = some name) : a.uses x = [] :=
  if_pos ⟨hk, by rw [h]; rfl⟩

theorem lt_size_of_rename (h : (a.node x).naming.rename = some name) : x < a.size := by
  by_contra hx
  rw [node_of_le (not_lt.mp hx)] at h
  cases h

theorem Twin.mem_uses (h : Twin d a b isSpace x) (hc : c ∈ a.uses x) : c ∈ d.refs x ∨
    (a.kind c = .identifier ∧ ∃ name, (a.node c).naming.rename = some name) ∨ isSpace c := by
  cases h with
  | renamed hk hr _ =>
    rw [uses_eq_nil_of_rename hk hr] at hc
    cases hc
  | @linked t name hp _ hk hr hsub _ =>
    have hm : (a.node x).naming = { target := some t } := by rw [Node.naming, Node.naming?, hp]; rfl
    rw [Document.uses, Node.uses_of_no_rename (by rw [hm]), hm] at hc
    rcases List.mem_append.mp hc with hc | hc
    · exact .inl (hsub hc)
    · obtain rfl : c = t := by simpa using hc
      exact .inr (.inl ⟨hk, name, hr⟩)
  | padded hpad hrefs hn =>
    have hm : (a.node x).naming? = none := by rw [Node.naming?, ← hpad.payload_eq]; exact hn
    rw [Document.uses, Node.uses_eq_refs hm] at hc
    exact (hpad.mem_references hc).imp (fun hc => hrefs ▸ hc) .inr

theorem Twin.uses_eq_nil (h : Twin d a b isSpace x) (hs : ∀ s, isSpace s → IsText (a.node s) " ")
    (hc : c ∈ a.uses x) : c ∈ d.refs x ∨ (a.uses c = [] ∧ c < a.size) := by
  rcases h.mem_uses hc with hc | ⟨hk, name, hr⟩ | hc
  · exact .inl hc
  · exact .inr ⟨uses_eq_nil_of_rename hk hr, lt_size_of_rename hr⟩
  · exact .inr ⟨(hs c hc).uses_eq, (hs c hc).lt_size⟩

theorem Twin.uses_subset (h : Twin d a b isSpace x) : b.uses x ⊆ d.refs x := by
  cases h with
  | renamed _ _ ht => rw [ht.uses_eq]; exact nil_subset _
  | linked _ _ _ _ _ ht => rw [ht.uses_eq]; exact nil_subset _
  | padded _ hrefs hn =>
    rw [Document.uses, Node.uses_eq_refs hn, ← hrefs]
    exact List.Subset.refl _

section Run

variable (htwin : ∀ x, Reaches d.refs top x → Twin d a b isSpace x)
  (hs : ∀ s, isSpace s → IsText (a.node s) " ")
include htwin hs

theorem shallow_succ_of_twin (hx : Reaches d.refs top x) (h : Shallow d.refs n x) :
    Shallow a.uses (n + 1) x := by
  induction n generalizing x with
  | zero => exact h.elim
  | succ n ih =>
    intro c hc
    rcases (htwin x hx).uses_eq_nil hs hc with hc | ⟨hc, -⟩
    · exact ih (hx.tail hc) (h c hc)
    · intro e he
      rw [hc] at he
      cases he

theorem reaches_of_twin {y : NodeId} (hx : Reaches d.refs top x) (hy : Reaches a.uses x y) :
    Reaches d.refs top y ∨ (a.uses y = [] ∧ y < a.size) := by
  induction hy with
  | refl => exact .inl hx
  | tail _ hc ih =>
    rcases ih with hp | ⟨hp, -⟩
    · rcases (htwin _ hp).uses_eq_nil hs hc with hc | hc
      · exact .inl (hp.tail hc)
      · exact .inr hc
    · rw [hp] at hc
      cases hc

theorem sourceOf_eq_of_twin (ha : ∀ x, Reaches d.refs top x → x < a.size)
    (hb : ∀ x, Reaches d.refs top x → x < b.size) (hx : Reaches d.refs top x)
    (h : Shallow d.refs n x) : a.sourceOf x = b.sourceOf x := by
  induction n generalizing x with
  | zero => exact h.elim
  | succ n ih =>
    have hsa : Shallow a.uses a.size x := (shallow_succ_of_twin htwin hs hx h).of_lt fun y hy => by
      rcases reaches_of_twin htwin hs hx hy with hy | ⟨-, hy⟩
      · exact ha y hy
      · exact hy
    have hsb : Shallow b.uses b.size x :=
      (h.of_lt fun y hy => hb y (hx.trans hy)).of_subset fun y hy =>
        (htwin y (hx.trans hy)).uses_subset
    cases htwin x hx with
    | renamed _ hr ht =>
      rw [sourceOf_eq hsa, write_of_rename hr, ht.sourceOf_eq]
    | @linked t name hp hne hk hr _ ht =>
      have hshallow := shallow_of_uses_eq_nil (uses_eq_nil_of_rename hk hr) (lt_size_of_rename hr)
      rw [sourceOf_eq hsa, write_of_target hp rfl, ht.sourceOf_eq]
      simp only [if_neg hne]
      rw [sourceOf_eq hshallow, write_of_rename hr]
    | padded hpad hrefs hn =>
      rw [sourceOf_eq hsa, sourceOf_eq hsb]
      refine hpad.writeDefault_eq hn (fun c hc => ?_) fun s hspace => (hs s hspace).sourceOf_eq
      rw [hrefs] at hc
      exact ih (hx.tail hc) (h c hc)

end Run

end Twin

end Script

end Stencil
