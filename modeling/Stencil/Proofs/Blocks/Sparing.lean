import Stencil.Proofs.Blocks.Nesting
import Stencil.Proofs.Doc.Enclave

/-!
# Nesting spares enclaves

Where no node of an enclave can be a marker, nesting goes through it and puts every branch together
again (`alike_nestNode`). So **the enclave stays intact** (`nest_intact`).
-/

namespace Stencil

open Document List
open Enclave (admitsAll_nil)

variable {d d' : Document} {id : NodeId} {b b' : Branch} {e : Enclave} {nested : NodeId → Edit Unit}
  {κ : Type}

namespace Nesting

variable [DecidableEq κ] {n : Nesting κ}
  {p p' : Progress κ}

section Alike

variable {S : NodeId → Prop}

/-- Nodes that are no markers and have each other in their branches. -/
structure Markerless (n : Nesting κ) (d : Document) (S : NodeId → Prop) : Prop where
  closed : d.ClosedUnder S
  kind : ∀ x, S x → d.kind x ∉ n.eligible

omit [DecidableEq κ] in
theorem Markerless.of_alike (h : n.Markerless d S) (ha : d.Alike d') : n.Markerless d' S :=
  ⟨h.closed.of_alike ha, fun x hx => ha.kind_eq x ▸ h.kind x hx⟩

omit [DecidableEq κ] in
theorem Markerless.setBranch_nil (h : n.Markerless d S) (id : NodeId) (i : Nat) :
    n.Markerless (d.setBranch id i []) S :=
  ⟨h.closed.setBranch_nil id i, fun x hx => by
    rw [Document.kind, setBranch, modify_of_eq Node.kind rfl]
    exact h.kind x hx⟩

theorem foldlM_alike
    (hnested : ∀ {d d' : Document} {x : NodeId}, n.Markerless d S → S x → nested x d = .ok () d' →
      d.Alike d') (h : n.Markerless d S) (hb : ∀ c ∈ b.nodes, S c) (hp : p.blocks = [])
    (hok : b.foldlM (n.takeFragment nested) p d = .ok p' d') :
    d.Alike d' ∧ Branch.items p'.out.reverse = Branch.items p.out.reverse ++ b.items := by
  induction b generalizing p d with
  | nil =>
    obtain ⟨rfl, rfl⟩ := pure_eq_ok.mp hok
    exact ⟨.refl _, (append_nil _).symm⟩
  | cons f b ih =>
    have hput : (p.put f).blocks = [] ∧ (p.put f).out = p.out.stack f := by
      rw [Progress.put, hp]
      exact ⟨rfl, rfl⟩
    rw [foldlM_cons] at hok
    obtain ⟨p1, d1, hstep, hmore⟩ := bind_eq_ok.mp hok
    obtain ⟨ha, rfl⟩ : d.Alike d1 ∧ p1 = p.put f := by
      cases f with
      | text s =>
        obtain ⟨rfl, rfl⟩ := pure_eq_ok.mp hstep
        exact ⟨.refl _, rfl⟩
      | node x =>
        have hx : S x := hb x mem_cons_self
        rcases take_cases hstep with ⟨hn, rfl⟩ | ⟨key, rule, hkey, -⟩ | ⟨key, o, outer, hkey, -⟩
        · exact ⟨hnested h hx hn, rfl⟩
        · exact absurd (kind_eligible hkey) (h.kind x hx)
        · exact absurd (kind_eligible hkey) (h.kind x hx)
    have hrest : ∀ c ∈ Branch.nodes b, S c := fun c hc => hb c (by
      cases f with
      | text s => exact hc
      | node y => exact mem_cons_of_mem _ hc)
    obtain ⟨ha', hit⟩ := ih (h.of_alike ha) hrest hput.1 hmore
    refine ⟨ha.trans ha', hit.trans ?_⟩
    rw [hput.2, Branch.items_stack, append_assoc, ← Branch.items_append, singleton_append]

theorem alike_nestNode (levels : Nat) (h : n.Markerless d S) (hid : ∀ c ∈ d.kids id, S c)
    (hok : n.nestNode levels id d = .ok () d') : d.Alike d' := by
  induction levels generalizing d d' id with
  | zero =>
    obtain ⟨-, rfl⟩ := pure_eq_ok.mp hok
    exact .refl _
  | succ levels ih =>
    refine mapBranches_ind (P := fun _ d1 => d.Alike d1) hok (.refl d)
      fun i hi d1 b d2 ha hbranch => ha.trans ?_
    have hi1 : i < (d1.branches id).length := ha.length_eq id ▸ hi
    have h1 := h.of_alike ha
    have hb : ∀ c ∈ (d1.branch id i).nodes, S c := fun c hc =>
      hid c (ha.kids_eq id ▸ mem_kids.mpr ⟨_, branch_mem hi1, hc⟩)
    obtain ⟨p, hfold, -, rfl⟩ := nestBranch_eq_ok hbranch
    obtain ⟨ha2, hit⟩ := foldlM_alike (fun h hx hok => ih h (fun c hc => h.closed _ c hx hc) hok)
      (h1.setBranch_nil id i) hb rfl hfold
    exact .putBack hi1 ha2 hit

end Alike

/-- Nodes that can be markers are of no kind that templates have. -/
def Foreign (n : Nesting κ) : Prop := ∀ k ∈ n.eligible, k ∉ Kind.ofTemplates

omit [DecidableEq κ] in
theorem Foreign.not_inside (hn : n.Foreign) (h : e.Intact d) {key : κ}
    (hkey : n.key? d id = some key) : ¬ e.inside id :=
  h.not_inside_of_kind (hn _ (kind_eligible hkey))

end Nesting

namespace Enclave.Intact

variable {x : NodeId}

theorem asBlock (h : e.Intact d) (hx : ¬ e.inside x) (kind : Kind) :
    e.Intact (d.modify x (Node.asBlock kind)) := by
  refine h.modify hx fun c hc => ?_
  rw [Node.asBlock, Node.setBranch_zero] at hc
  rcases mem_cons.mp hc with rfl | hc
  · exact admitsAll_nil
  · exact fun y hy => h.admits hx (mem_kids.mpr ⟨c, mem_of_mem_tail hc, hy⟩)

theorem absorb {k : Nat} {g : Body → Body} (h : e.Intact d) (hx : ¬ e.inside x)
    (hb : e.AdmitsAll b) : e.Intact (d.modify x (Node.absorb k b g)) := by
  have hfill : e.Intact (d.modify x (Node.fill k b)) := by
    by_cases hemp : b.isEmpty = true
    · refine h.modify_same hx ?_
      rw [Node.fill, if_pos hemp]
    · rw [modify_congr (g := (·.setBranch k b.reverse)) (if_neg hemp)]
      exact h.setBranch hx (admitsAll_reverse.mpr hb) k
  have hbody := hfill.modify_same (f := fun n => { n with payload := .body (g n.body) }) hx rfl
  rw [modify_modify] at hbody
  rw [modify_congr (g := fun n => { n.fill k b with payload := .body (g (n.fill k b).body) })]
  · exact hbody
  · rw [Node.absorb, Node.body_fill]

end Enclave.Intact

namespace Nesting

variable [DecidableEq κ] {n : Nesting κ}
  {p p' : Progress κ}

def Spares (e : Enclave) (nested : NodeId → Edit Unit) : Prop :=
  ∀ {d d' : Document} {x : NodeId}, e.Intact d → nested x d = .ok () d' → e.Intact d'

theorem take_outside (hn : n.Foreign) (hs : Spares e nested) (h : e.Intact d) (hp : p.pile.Outside e)
    (hid : e.Admits id) (hok : n.take nested p id d = .ok p' d') : e.Intact d' ∧ p'.pile.Outside e := by
  have hput : ∀ {p : Progress κ} {x : NodeId}, p.pile.Outside e → e.Admits x →
      (p.put (.node x)).pile.Outside e := fun hp hx => by
    rw [pile_put]
    exact hp.add fun _ hb => hb.stack_node hx
  have hinner : ∀ {o : OpenBlock κ} {outer : List (OpenBlock κ)}, p.blocks = o :: outer →
      (¬ e.inside o.node ∧ e.AdmitsAll o.content) ∧
        ({ p with blocks := outer } : Progress κ).pile.Outside e := fun hblocks => by
    have hopened := hp.opened
    rw [Progress.pile, hblocks, map_cons, forall_mem_cons] at hopened
    exact ⟨hopened.1, hopened.2, hp.out⟩
  rcases take_cases hok with ⟨hnested, rfl⟩ | ⟨key, rule, hkey, hrule, hok⟩ |
    ⟨key, o, outer, -, hblocks, ⟨-, hok⟩ | ⟨next, hstep, hok⟩⟩
  · exact ⟨hs h hnested, hput hp hid⟩
  · obtain ⟨rfl, rfl⟩ := enter_eq_ok hok
    have hnot := hn.not_inside h hkey
    exact ⟨h.asBlock hnot _, forall_mem_cons.mpr ⟨⟨hnot, admitsAll_nil⟩, hp.opened⟩, hp.out⟩
  · obtain ⟨rfl, rfl⟩ := close_eq_ok hok
    obtain ⟨⟨hnot, hcontent⟩, houter⟩ := hinner hblocks
    exact ⟨h.absorb hnot hcontent, hput houter (Enclave.admits_outside hnot)⟩
  · obtain ⟨rfl, rfl⟩ := separate_eq_ok hok
    obtain ⟨⟨hnot, hcontent⟩, houter⟩ := hinner hblocks
    have h' := h.absorb (k := o.branch) (g := (·.mark next.branch id)) hnot hcontent
    have hnext : ¬ e.inside next.node := by rwa [(step_separates hstep).1]
    refine ⟨h', forall_mem_cons.mpr ⟨⟨hnext, ?_⟩, houter.opened⟩, hp.out⟩
    exact Enclave.admitsAll_reverse.mpr (h'.admitsAll_branch hnext _)

theorem foldlM_outside (hn : n.Foreign) (hs : Spares e nested) (h : e.Intact d)
    (hp : p.pile.Outside e) (hb : e.AdmitsAll b)
    (hok : b.foldlM (n.takeFragment nested) p d = .ok p' d') : e.Intact d' ∧ p'.pile.Outside e := by
  have hall := foldlM_induction (P := fun b p d => (e.Intact d ∧ p.pile.Outside e) ∧ e.AdmitsAll b)
    (fun ⟨⟨h, hp⟩, hb⟩ => ⟨⟨h, by rw [pile_put]; exact hp.add fun _ hb => hb.stack_text _⟩, hb⟩)
    (fun ⟨⟨h, hp⟩, hb⟩ hstep => by
      obtain ⟨hx, hb⟩ := forall_mem_cons.mp hb
      exact ⟨take_outside hn hs h hp hx hstep, hb⟩) ⟨⟨h, hp⟩, hb⟩ hok
  exact hall.1

theorem nestNode_spares (hn : n.Foreign) (levels : Nat) : Spares e (n.nestNode levels) := by
  induction levels with
  | zero =>
    intro d d' id h hok
    obtain ⟨-, rfl⟩ := pure_eq_ok.mp hok
    exact h
  | succ levels ih =>
    intro d d' id h hok
    by_cases hid : e.inside id
    · have hmarkerless : n.Markerless d e.inside :=
        ⟨h.closedUnder, fun x hx hk => hn _ hk (h.kind_mem hx)⟩
      exact h.of_alike (alike_nestNode (levels + 1) hmarkerless (fun _ hc => h.inside_of_mem hid hc) hok)
    · refine mapBranches_ind (P := fun _ d => e.Intact d) hok h
        fun i _ d1 b d2 h1 hbranch => ?_
      obtain ⟨p, hfold, -, rfl⟩ := nestBranch_eq_ok hbranch
      have hstart : ({} : Progress κ).pile.Outside e :=
        ⟨fun t ht => absurd ht not_mem_nil, admitsAll_nil⟩
      obtain ⟨h2, hp⟩ := foldlM_outside hn ih (h1.setBranch hid admitsAll_nil i) hstart
        (h1.admitsAll_branch hid i) hfold
      exact h2.setBranch hid (Enclave.admitsAll_reverse.mpr hp.out) i

theorem nest_intact (hn : n.Foreign) (h : e.Intact d) (hok : n.nest id d = .ok () d') :
    e.Intact d' := by
  rw [nest, get_bind] at hok
  exact nestNode_spares hn d.size h hok

end Nesting

end Stencil
