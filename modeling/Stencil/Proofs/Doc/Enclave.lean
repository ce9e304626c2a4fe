import Stencil.Proofs.Doc.Alike
import Stencil.Proofs.Doc.Copying
import Stencil.Proofs.Doc.Pile
import Stencil.Proofs.Doc.Walking

/-!
# Enclaves

An enclave is a part of a document that passes are to leave alone: it has its own nodes in its branches
and no others, and in other branches none of its nodes stands but its doors, which are raw output. An
enclave is `Intact` in another document if its nodes are alike there and still nothing but its doors
stands in other branches.
-/

namespace Stencil

open Branch List

variable {d d' : Document} {c id x y : NodeId} {b b' : Branch} {e : Enclave}
  {fragments : List Fragment} {closed kinds : List Kind} {i n : Nat}
  {below : NodeId → Document → Document} {change : NodeId → Document → List Fragment × Document}

namespace Kind

/-- The kinds of nodes in a template whose markup has not been read. -/
def ofTemplates : List Kind :=
  [.root, .expanded, .content, .tag, .tagElement, .variableTag, .variablePart, .comment,
   .longComment, .extendsTag, .includeTag, .loadTag, .transTag, .pluralTag, .urlTag, .callMacro,
   .config, .rawOutput] ++ templateBlocks

end Kind

open Document

/-- A part of a document that has its own nodes in its branches, and the nodes of it that stand in
other branches. -/
structure Enclave where
  host : Document
  inside : NodeId → Prop
  door : NodeId → Prop
  lt_size : ∀ {x : NodeId}, inside x → x < host.size
  kind_mem : ∀ {x : NodeId}, inside x → host.kind x ∈ Kind.ofTemplates
  inside_of_mem : ∀ {x c : NodeId}, inside x → c ∈ host.kids x → inside c
  not_inside_root : ¬ inside root
  door_kind : ∀ {x : NodeId}, door x → host.kind x = .rawOutput

namespace Enclave

variable {f : Node → Node}

def Admits (e : Enclave) (c : NodeId) : Prop := e.inside c → e.door c

def AdmitsAll (e : Enclave) (b : Branch) : Prop := ∀ c ∈ b.nodes, e.Admits c

theorem admits_outside (h : ¬ e.inside c) : e.Admits c := fun hc => absurd hc h

theorem admitsAll_nil : e.AdmitsAll [] := fun _ hc => absurd hc not_mem_nil

theorem admitsAll_text (s : String) : e.AdmitsAll [.text s] := fun _ hc => absurd hc not_mem_nil

theorem AdmitsAll.append (h : e.AdmitsAll b) (h' : e.AdmitsAll b') :
    e.AdmitsAll (b ++ b') := fun c hc => by
  rw [nodes_append] at hc
  exact (mem_append.mp hc).elim (h c) (h' c)

theorem AdmitsAll.sublist (h : e.AdmitsAll b) (hs : b'.Sublist b) : e.AdmitsAll b' :=
  fun c hc => h c ((hs.filterMap _).subset hc)

theorem admitsAll_reverse : e.AdmitsAll b.reverse ↔ e.AdmitsAll b := by
  rw [AdmitsAll, nodes_reverse]
  simp only [mem_reverse]
  rfl

theorem AdmitsAll.stack_text (h : e.AdmitsAll b) (s : String) : e.AdmitsAll (b.stack (.text s)) := by
  rw [AdmitsAll, nodes_stack_text]
  exact h

theorem AdmitsAll.stack_node (h : e.AdmitsAll b) (hc : e.Admits c) :
    e.AdmitsAll (b.stack (.node c)) := by
  rw [AdmitsAll, nodes_stack_node]
  exact forall_mem_cons.mpr ⟨hc, h⟩

/-- The enclave is as it was in its host, and only its doors stand in other branches. -/
structure Intact (e : Enclave) (d : Document) : Prop where
  size_le : e.host.size ≤ d.size
  alike : ∀ {x : NodeId}, e.inside x → (e.host.node x).Alike (d.node x)
  admits : ∀ {y c : NodeId}, ¬ e.inside y → c ∈ d.kids y → e.Admits c

namespace Intact

section

variable (h : e.Intact d)
include h

theorem kind_eq (hx : e.inside x) : d.kind x = e.host.kind x := (h.alike hx).kind_eq

theorem kind_mem (hx : e.inside x) : d.kind x ∈ Kind.ofTemplates :=
  h.kind_eq hx ▸ e.kind_mem hx

theorem not_inside_of_kind (hk : d.kind x ∉ Kind.ofTemplates) : ¬ e.inside x :=
  fun hx => hk (h.kind_mem hx)

theorem not_inside_foreign
    (hkinds : ∀ k ∈ kinds, k ∉ Kind.ofTemplates) (hx : x ∈ d.descendants id kinds closed) :
    ¬ e.inside x :=
  h.not_inside_of_kind (hkinds _ (contains_iff_mem.mp (mem_filter.mp hx).2))

theorem inside_of_mem (hx : e.inside x) (hc : c ∈ d.kids x) : e.inside c := by
  have hkids : d.kids x = e.host.kids x := (h.alike hx).kids_eq
  exact e.inside_of_mem hx (hkids ▸ hc)

theorem not_inside_of_mem (hy : ¬ e.inside y) (hc : c ∈ d.kids y)
    (hk : d.kind c ≠ .rawOutput) : ¬ e.inside c := fun hin =>
  hk ((h.kind_eq hin).trans (e.door_kind (h.admits hy hc hin)))

theorem admitsAll_branch (hy : ¬ e.inside y) (i : Nat) :
    e.AdmitsAll (d.branch y i) := fun _ hc =>
  h.admits hy (mem_kids.mpr ⟨_, branch_mem (lt_of_mem_branch hc), hc⟩)

theorem not_inside_of_met (hclosed : Kind.rawOutput ∈ closed) (hid : ¬ e.inside id)
    (hmet : d.Met (fun y => !d.hasKind y closed) id x) (hk : d.kind x ≠ .rawOutput) : ¬ e.inside x := by
  induction hmet with
  | kid hc => exact h.not_inside_of_mem hid hc hk
  | deeper hc henter _ ih =>
    refine ih (h.not_inside_of_mem hid hc fun hraw => ?_) hk
    rw [hasKind, hraw, contains_iff_mem.mpr hclosed] at henter
    cases henter

theorem not_inside_of_descendant (hid : ¬ e.inside id)
    (hclosed : Kind.rawOutput ∈ closed) (hkinds : Kind.rawOutput ∉ kinds)
    (hx : x ∈ d.descendants id kinds closed) : ¬ e.inside x := by
  obtain ⟨hwalk, hkind⟩ := mem_filter.mp hx
  refine h.not_inside_of_met hclosed hid (met_of_mem_below hwalk) fun hraw => hkinds ?_
  exact hraw ▸ contains_iff_mem.mp hkind

theorem of_alike (ha : d.Alike d') : e.Intact d' where
  size_le := ha.size_eq ▸ h.size_le
  alike hx := (h.alike hx).trans (ha.node _)
  admits hy hc := h.admits hy (ha.kids_eq _ ▸ hc)

theorem modify (hx : ¬ e.inside x)
    (hf : ∀ b ∈ (f (d.node x)).branches, e.AdmitsAll b) : e.Intact (d.modify x f) where
  size_le := by rw [size_modify]; exact h.size_le
  alike {y} hy := by
    rw [modify_ne (by rintro rfl; exact hx hy)]
    exact h.alike hy
  admits {y c} hy hc := by
    by_cases hlt : x < d.size
    · by_cases hxy : y = x
      · subst hxy
        obtain ⟨b, hb, hc⟩ := mem_kids.mp hc
        rw [branches, modify_self hlt] at hb
        exact hf b hb c hc
      · rw [kids, branches, modify_ne hxy] at hc
        exact h.admits hy hc
    · rw [modify_of_le (not_lt.mp hlt)] at hc
      exact h.admits hy hc

theorem modify_same (hx : ¬ e.inside x)
    (hf : (f (d.node x)).branches = (d.node x).branches) : e.Intact (d.modify x f) :=
  h.modify hx fun _ hb _ hc => h.admits hx (mem_kids.mpr ⟨_, by rwa [branches, ← hf], hc⟩)

theorem setKind (hx : ¬ e.inside x) (k : Kind) : e.Intact (d.setKind x k) :=
  h.modify_same hx rfl

theorem setChildren (hx : ¬ e.inside x) (hb : e.AdmitsAll b) : e.Intact (d.setChildren x b) :=
  h.modify hx fun _ hc => mem_singleton.mp hc ▸ hb

theorem setBranch (hx : ¬ e.inside x) (hb : e.AdmitsAll b) (i : Nat) :
    e.Intact (d.setBranch x i b) := by
  refine h.modify hx fun c hc => ?_
  rcases mem_or_eq_of_mem_set hc with hc | rfl
  · rcases mem_append.mp hc with hc | hc
    · exact fun y hy => h.admits hx (mem_kids.mpr ⟨c, hc, hy⟩)
    · rw [eq_of_mem_replicate hc]
      exact admitsAll_nil
  · exact hb

theorem append (hx : ¬ e.inside x) {g : Fragment} (hg : e.AdmitsAll [g]) (i : Nat) :
    e.Intact (d.append x i g) := by
  have heq : d.append x i g = d.setBranch x i ((d.branch x i).push g) := modify_congr rfl
  rw [heq]
  refine h.setBranch hx (fun c hc => ?_) i
  rw [nodes_push] at hc
  rcases mem_append.mp hc with hc | hc
  · exact h.admitsAll_branch hx i c hc
  · refine hg c ?_
    cases g with
    | text s => cases hc
    | node y => exact hc

theorem appendText (hx : ¬ e.inside x) (s : String) : e.Intact (d.appendText x s) := by
  rw [Document.appendText]
  split_ifs
  · exact h
  · exact h.append hx (admitsAll_text s) 0

theorem create (kind : Kind) (place : Place) : e.Intact (d.create kind place).2 where
  size_le := by rw [size_create]; exact Nat.le_succ_of_le h.size_le
  alike hx := by
    rw [create_of_lt (lt_of_lt_of_le (e.lt_size hx) h.size_le)]
    exact h.alike hx
  admits {y c} hy hc := by
    by_cases heq : y = d.size
    · subst heq
      rw [kids, branches, create_self] at hc
      cases hc
    · rw [kids, branches, node_create_ne heq] at hc
      exact h.admits hy hc

theorem not_inside_of_le (hx : d.size ≤ x) : ¬ e.inside x := fun hin =>
  not_lt.mpr hx (lt_of_lt_of_le (e.lt_size hin) h.size_le)

theorem grown (hg : d.Grown d') : e.Intact d' where
  size_le := le_trans h.size_le hg.size_le
  alike hx := by
    rw [hg.node_eq _ (lt_of_lt_of_le (e.lt_size hx) h.size_le)]
    exact h.alike hx
  admits {y c} hy hc := by
    rcases lt_or_ge y d.size with hlt | hge
    · rw [kids, branches, hg.node_eq y hlt] at hc
      exact h.admits hy hc
    · exact admits_outside (h.not_inside_of_le (hg.refs_ge y hge c (d'.kids_sub y hc)))

theorem prepend (hx : ¬ e.inside x) (hf : e.AdmitsAll fragments) : e.Intact (d.prepend x fragments) :=
  h.setBranch hx (hf.append (h.admitsAll_branch hx 0)) 0

theorem foldl {α : Type} {g : Document → α → Document} {l : List α}
    (hg : ∀ d : Document, e.Intact d → ∀ a ∈ l, e.Intact (g d a)) : e.Intact (l.foldl g d) :=
  List.foldlRecOn l g h hg

end

end Intact

end Enclave

namespace Document

variable {S : NodeId → Prop}

/-- Nodes that have each other in their branches and no others. -/
def ClosedUnder (d : Document) (S : NodeId → Prop) : Prop := ∀ x c, S x → c ∈ d.kids x → S c

theorem ClosedUnder.of_alike (h : d.ClosedUnder S) (ha : d.Alike d') : d'.ClosedUnder S :=
  fun x c hx hc => h x c hx (ha.kids_eq x ▸ hc)

theorem ClosedUnder.setBranch_nil (h : d.ClosedUnder S) (id : NodeId) (i : Nat) :
    (d.setBranch id i []).ClosedUnder S := by
  intro x c hx hc
  refine h x c hx ?_
  by_cases hlt : id < d.size
  · by_cases heq : x = id
    · subst heq
      rw [kids, branches, setBranch, modify_self hlt] at hc
      have hmem := ((d.node x).setBranch_exchange i []).mem_iff.mp (mem_append_left _ hc)
      rwa [nodes_nil, append_nil] at hmem
    · rwa [kids, branches, setBranch, modify_ne heq] at hc
  · rwa [setBranch, modify_of_le (not_lt.mp hlt)] at hc

theorem alike_rebuildBranch (hchange : ∀ x d, S x → change x d = ([.node x], d))
    (hbelow : ∀ {d : Document} {x : NodeId}, d.ClosedUnder S → S x → d.Alike (below x d))
    (hS : d.ClosedUnder S) (hid : S id) (hi : i < (d.branches id).length) :
    d.Alike (rebuildBranch change below id d i) := by
  -- fragment by fragment, what has been built has the items of what has been taken
  have hfold : ∀ (b : Branch) (built : Branch × Document), (∀ c ∈ b.nodes, S c) →
      (d.setBranch id i []).Alike built.2 →
      (d.setBranch id i []).Alike (b.foldl (replaceFragment change below) built).2 ∧
        Branch.items (b.foldl (replaceFragment change below) built).1.reverse =
          Branch.items built.1.reverse ++ b.items := by
    intro b
    induction b with
    | nil => exact fun built _ h => ⟨h, (append_nil _).symm⟩
    | cons f b ih =>
      intro built hb h
      have hone : (d.setBranch id i []).Alike (replaceFragment change below built f).2 ∧
          (replaceFragment change below built f).1 = built.1.stack f := by
        cases f with
        | text s => exact ⟨h, rfl⟩
        | node c =>
          have hc : S c := hb c mem_cons_self
          have hclosed := (hS.setBranch_nil id i).of_alike h
          rw [replaceFragment, hchange c _ hc]
          exact ⟨h.trans (hbelow hclosed hc), rfl⟩
      have hrest : ∀ c ∈ Branch.nodes b, S c := fun c hc => hb c (by
        cases f with
        | text s => exact hc
        | node y => exact mem_cons_of_mem _ hc)
      obtain ⟨halike, hit⟩ := ih (replaceFragment change below built f) hrest hone.1
      refine ⟨halike, hit.trans ?_⟩
      rw [hone.2, items_stack, append_assoc, ← items_append, singleton_append]
  have hb : ∀ c ∈ (d.branch id i).nodes, S c := fun c hc =>
    hS id c hid (mem_kids.mpr ⟨_, branch_mem hi, hc⟩)
  obtain ⟨halike, hit⟩ := hfold (d.branch id i) ([], d.setBranch id i []) hb (.refl _)
  exact .putBack hi halike hit

theorem alike_rebuild (hchange : ∀ x d, S x → change x d = ([.node x], d)) (hS : d.ClosedUnder S)
    (hid : S id) : d.Alike (d.rebuild change n id) := by
  induction n generalizing d id with
  | zero => exact .refl d
  | succ n ih =>
    rw [rebuild_succ]
    have hlt : ∀ i ∈ List.range (d.branches id).length, i < (d.branches id).length := fun i hi =>
      mem_range.mp hi
    refine List.foldlRecOn _ _ (Alike.refl d) fun d' h i hi => h.trans ?_
    exact alike_rebuildBranch hchange (fun hS hx => ih hS hx) (hS.of_alike h) hid
      (h.length_eq id ▸ hlt i hi)

end Document

namespace Enclave.Intact

theorem closedUnder (h : e.Intact d) : d.ClosedUnder e.inside := fun _ _ => h.inside_of_mem

section Rebuild

variable (hin : ∀ x d, e.inside x → change x d = ([.node x], d))
  (hout : ∀ x d, ¬ e.inside x → e.Intact d →
    e.Intact (change x d).2 ∧ e.AdmitsAll (change x d).1)
include hin hout

theorem foldl_replaceFragment
    (hbelow : ∀ {d : Document} {x : NodeId}, e.Intact d → e.Intact (below x d)) (hb : e.AdmitsAll b)
    {p : Branch × Document} (h : e.Intact p.2) (hbuilt : e.AdmitsAll p.1) :
    e.Intact (b.foldl (replaceFragment change below) p).2 ∧
      e.AdmitsAll (b.foldl (replaceFragment change below) p).1 := by
  induction b generalizing p with
  | nil => exact ⟨h, hbuilt⟩
  | cons f b ih =>
    cases f with
    | text s => exact ih hb h (hbuilt.stack_text s)
    | node c =>
      obtain ⟨hc, hb⟩ := forall_mem_cons.mp hb
      have hone : e.Intact (change c (below c p.2)).2 ∧
          e.AdmitsAll (change c (below c p.2)).1 := by
        by_cases hcin : e.inside c
        · rw [hin c _ hcin]
          exact ⟨hbelow h, forall_mem_singleton.mpr hc⟩
        · exact hout c _ hcin (hbelow h)
      refine ih hb hone.1 fun y hy => ?_
      rw [replaceFragment, nodes_foldl_stack] at hy
      rcases mem_append.mp hy with hy | hy
      · exact hone.2 y (mem_reverse.mp hy)
      · exact hbuilt y hy

theorem rebuild (h : e.Intact d) : e.Intact (d.rebuild change n id) := by
  induction n generalizing d id with
  | zero => exact h
  | succ n ih =>
    by_cases hid : e.inside id
    · exact h.of_alike (alike_rebuild hin h.closedUnder hid)
    · rw [rebuild_succ]
      refine h.foldl fun d h i _ => ?_
      obtain ⟨hintact, hadmits⟩ := foldl_replaceFragment hin hout ih (h.admitsAll_branch hid i)
        (p := ([], d.setBranch id i [])) (h.setBranch hid admitsAll_nil i) admitsAll_nil
      exact hintact.setBranch hid (admitsAll_reverse.mpr hadmits) i

end Rebuild

theorem removeNodes (h : e.Intact d) (id : NodeId) {removed : List NodeId}
    (hout : ∀ x ∈ removed, ¬ e.inside x) : e.Intact (d.removeNodes id removed) := by
  rw [Document.removeNodes]
  split_ifs
  · exact h
  · refine rebuild (fun x d hx => ?_) (fun x d hx hd => ⟨hd, ?_⟩) h
    · rw [if_neg fun hmem => hout x (contains_iff_mem.mp hmem) hx]
    · dsimp only
      split_ifs
      · exact admitsAll_nil
      · exact forall_mem_singleton.mpr (admits_outside hx)

theorem replaceNode (h : e.Intact d) (hx : ¬ e.inside x)
    (hf : e.AdmitsAll fragments) : e.Intact (d.replaceNode x fragments).2 := by
  rw [Document.replaceNode]
  cases hslot : d.locate x with
  | none => exact h
  | some slot =>
    have hget := (locateBelow_eq_some hslot).2
    have hmem : x ∈ (d.branch slot.owner slot.branch).nodes :=
      mem_nodes.mpr (mem_of_getElem? hget)
    -- a node inside has no node from outside in its branches
    have howner : ¬ e.inside slot.owner := fun hin => hx (h.inside_of_mem hin
      (mem_kids.mpr ⟨_, branch_mem (lt_of_mem_branch hmem), hmem⟩))
    have hold := h.admitsAll_branch howner slot.branch
    refine h.setBranch howner (fun c hc => ?_) slot.branch
    rw [nodes_ofFragments] at hc
    exact ((hold.sublist (take_sublist _ _)).append hf).append
      (hold.sublist (drop_sublist _ _)) c hc

end Enclave.Intact

/-- The open nodes are outside an enclave, and so is what is held, but for doors. -/
structure Pile.Outside (e : Enclave) (p : Pile) : Prop where
  opened : ∀ t ∈ p.opened, ¬ e.inside t.1 ∧ e.AdmitsAll t.2
  out : e.AdmitsAll p.out

theorem Pile.Outside.add {p : Pile} {f : Fragment} (h : p.Outside e)
    (hf : ∀ b : Branch, e.AdmitsAll b → e.AdmitsAll (b.stack f)) : (p.add f).Outside e := by
  rw [Pile.add]
  split
  case h_1 x b opened ho =>
    obtain ⟨hx, hopened⟩ := forall_mem_cons.mp (ho ▸ h.opened)
    exact ⟨forall_mem_cons.mpr ⟨⟨hx.1, hf b hx.2⟩, hopened⟩, h.out⟩
  case h_2 ho =>
    refine ⟨fun t ht => ?_, hf _ h.out⟩
    rw [ho] at ht
    cases ht

namespace Document

variable {L : List NodeId} {r : NodeId} {m : Manner}

/-- The document of a template whose markup has not been read. -/
structure Templated (d : Document) : Prop where
  grove : d.Grove [root]
  plain : d.Plain
  root_kind : d.kind root = .root
  kind_mem : ∀ x, d.kind x ∈ Kind.ofTemplates

def rawEnclave (h : d.Templated) (hr : d.kind r = .rawOutput) : Enclave where
  host := d
  inside := Reaches d.refs r
  door x := x = r
  lt_size := h.grove.lt_of_reaches (lt_of_kind_ne (by rw [hr]; decide))
  kind_mem _ := h.kind_mem _
  inside_of_mem hx hc := Relation.ReflTransGen.tail hx (d.kids_sub _ hc)
  not_inside_root hroot := by
    obtain rfl := h.grove.eq_of_reaches mem_cons_self hroot
    rw [h.root_kind] at hr
    cases hr
  door_kind hx := hx ▸ hr

theorem intact_rawEnclave (h : d.Templated) (hr : d.kind r = .rawOutput) :
    (rawEnclave h hr).Intact d where
  size_le := le_refl _
  alike _ := .refl _
  admits {y c} hy hc hin := by
    -- what leads to a node leads to its owner
    rcases Relation.ReflTransGen.cases_tail hin with heq | ⟨p, hp, hpc⟩
    · exact heq
    · obtain rfl := h.grove.owner_eq hpc (d.kids_sub y hc)
      exact absurd hp hy

theorem writeBranches_rawEnclave {h : d.Templated} {hr : d.kind r = .rawOutput}
    (hi : (rawEnclave h hr).Intact d') (hm : m.Textual) (hg : d'.Grove L) :
    d'.writeBranches (d'.render m) r = d.writeBranches (d.render m) r := by
  have hself : (d.node r).Alike (d'.node r) := hi.alike .refl
  have htexts : (d'.branches r).map (writeBranch (d'.render m)) =
      (d.branches r).map (writeBranch (d.render m)) := by
    refine (hself.texts_eq _).trans (map_congr_left fun b hb => branch_congr fun c hc => ?_)
    have hcr := refs_of_branch hb hc
    have hlt := h.grove.lt_of_refs hcr
    exact render_alike hm h.grove hg hlt (lt_of_lt_of_le hlt hi.size_le) (fun y _ => h.plain y)
      fun y hy => hi.alike ((Reaches.child hcr).trans hy)
  rw [writeBranches, writeBranches, htexts]

def lostEnclave (h : d.Templated) : Enclave where
  host := d
  inside x := x < d.size ∧ ¬ Reaches d.kids root x
  door _ := False
  lt_size hx := hx.1
  kind_mem _ := h.kind_mem _
  inside_of_mem {x c} hx hc := by
    have hcx := d.kids_sub x hc
    refine ⟨h.grove.lt_of_refs hcx, fun hr => ?_⟩
    rcases Relation.ReflTransGen.cases_tail hr with heq | ⟨p, hp, hpc⟩
    · exact h.grove.not_mem_refs mem_cons_self (heq ▸ hcx)
    · obtain rfl := h.grove.owner_eq (d.kids_sub p hpc) hcx
      exact hx.2 hp
  not_inside_root hroot := hroot.2 .refl
  door_kind hx := hx.elim

theorem intact_lostEnclave (h : d.Templated) : (lostEnclave h).Intact d where
  size_le := le_refl _
  alike _ := .refl _
  admits {y c} hy hc hin := by
    have hlt : y < d.size := by
      by_contra hlt
      rw [kids, branches, node_of_le (not_lt.mp hlt)] at hc
      cases hc
    exact hin.2 ((not_not.mp fun hn => hy ⟨hlt, hn⟩).tail hc)

theorem reaches_of_lostEnclave {h : d.Templated} (hi : (lostEnclave h).Intact d') (hx : x < d.size)
    (hr : Reaches d'.kids root x) : Reaches d.kids root x := by
  have hout : ¬ (lostEnclave h).inside x := by
    clear hx
    induction hr with
    | refl => exact (lostEnclave h).not_inside_root
    | tail _ hc ih => exact fun hin => hi.admits ih hc hin
  exact not_not.mp fun hn => hout ⟨hx, hn⟩

end Document

end Stencil
