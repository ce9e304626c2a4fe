import Stencil.Proofs.Doc.Replacing
import Stencil.Proofs.Template.Keeping

/-!
# How deep decorate tags are nested

A decorate tag gives way to a copy of a template, with copies of the content of the tag in it. If the
template has no decorate tags left, the copy has those of the content only, so **tags are nested less
deep in what takes the place of a tag** (`Decorated.nested`).
-/

namespace Stencil

open Document List

variable {template : Document} {content : Branch}

namespace Template

variable {d d' s : Document} {L M l : List NodeId} {a c id p t x y : NodeId} {n m k : Nat}

/-- In the node, itself included, decorate tags are at most so many levels deep. -/
inductive Nested (d : Document) : Nat → NodeId → Prop where
  | raw {n : Nat} {x : NodeId} : d.kind x = .rawOutput → Nested d n x
  | tag {n : Nat} {x : NodeId} : d.kind x = .decorate → (∀ c ∈ d.kids x, Nested d n c) →
      Nested d (n + 1) x
  | other {n : Nat} {x : NodeId} : d.kind x ≠ .decorate → (∀ c ∈ d.kids x, Nested d n c) →
      Nested d n x

namespace Nested

theorem mono (h : Nested d n x) (hnm : n ≤ m) : Nested d m x := by
  induction h generalizing m with
  | raw hk => exact .raw hk
  | tag hk _ ih =>
    obtain ⟨m, rfl⟩ : ∃ k, m = k + 1 := ⟨m - 1, by omega⟩
    exact .tag hk fun c hc => ih c hc (by omega)
  | other hk _ ih => exact .other hk fun c hc => ih c hc hnm

theorem of_shallow (h : Shallow d.kids n x) : Nested d n x := by
  induction n generalizing x with
  | zero => exact h.elim
  | succ n ih =>
    by_cases hk : d.kind x = .decorate
    · exact .tag hk fun c hc => ih (h c hc)
    · exact .other hk fun c hc => (ih (h c hc)).mono (Nat.le_succ n)

theorem congr (h : Nested d n x) (heq : ∀ y, Reaches d.kids x y → d'.node y = d.node y) :
    Nested d' n x := by
  induction h with
  | raw hk => exact .raw (by rw [kind_congr (heq _ .refl)]; exact hk)
  | tag hk _ ih =>
    refine .tag (by rw [kind_congr (heq _ .refl)]; exact hk) fun c hc => ?_
    rw [kids_congr (heq _ .refl)] at hc
    exact ih c hc fun y hy => heq y ((Reaches.child hc).trans hy)
  | other hk _ ih =>
    refine .other (by rw [kind_congr (heq _ .refl)]; exact hk) fun c hc => ?_
    rw [kids_congr (heq _ .refl)] at hc
    exact ih c hc fun y hy => heq y ((Reaches.child hc).trans hy)

theorem kids_of_tag (h : Nested d (n + 1) x) (hk : d.kind x = .decorate) :
    ∀ c ∈ d.kids x, Nested d n c := by
  cases h with
  | raw hraw => rw [hk] at hraw; cases hraw
  | tag _ hc => exact hc
  | other hne _ => exact absurd hk hne

theorem kids_of_other (h : Nested d n x) (hraw : d.kind x ≠ .rawOutput) (hk : d.kind x ≠ .decorate) :
    ∀ c ∈ d.kids x, Nested d n c := by
  cases h with
  | raw hraw' => exact absurd hraw' hraw
  | tag hk' _ => exact absurd hk' hk
  | other _ hc => exact hc

theorem kind_ne_of_zero (h : Nested d 0 x) : d.kind x ≠ .decorate := by
  intro hk
  cases h with
  | raw hraw => rw [hk] at hraw; cases hraw
  | other hne _ => exact hne hk

end Nested

theorem kids_renumber (f : NodeId → NodeId) (target : NodeId → Option NodeId) (node : Node) :
    (renumber f target node).branches.flatMap Branch.nodes =
      (node.branches.flatMap Branch.nodes).map f :=
  flatMap_nodes_map (fun _ => rfl) (fun _ => rfl) node.branches

variable {outside : NodeId → Option NodeId}

theorem kids_adopt_copyNumber (hn : l.Nodup) (hx : x ∈ l) :
    (d.adopt s l outside).2.kids (copyNumber d.size l x) = (s.kids x).map (copyNumber d.size l) := by
  obtain ⟨i, hi, rfl⟩ := getElem_of_mem hx
  rw [copyNumber_getElem hn hi, kids, branches, node_adopt_add hi, kids_renumber]
  rfl

theorem kind_adopt_copyNumber (hn : l.Nodup) (hx : x ∈ l) :
    (d.adopt s l outside).2.kind (copyNumber d.size l x) = s.kind x := by
  obtain ⟨i, hi, rfl⟩ := getElem_of_mem hx
  rw [copyNumber_getElem hn hi, kind, node_adopt_add hi]
  rfl

theorem Nested.adopt (h : Nested s n a) (hl : s.IsTree x l) (ha : a ∈ l) :
    Nested (d.adopt s l outside).2 n (copyNumber d.size l a) := by
  have hkids : ∀ {a : NodeId}, a ∈ l → ∀ e ∈ (d.adopt s l outside).2.kids (copyNumber d.size l a),
      ∃ c ∈ s.kids a, c ∈ l ∧ copyNumber d.size l c = e := fun {a} ha e he => by
    rw [kids_adopt_copyNumber hl.nodup ha] at he
    obtain ⟨c, hc, rfl⟩ := mem_map.mp he
    exact ⟨c, hc, hl.closed a ha c (s.kids_sub a hc), rfl⟩
  induction h with
  | raw hk => exact .raw (by rw [kind_adopt_copyNumber hl.nodup ha]; exact hk)
  | tag hk _ ih =>
    refine .tag (by rw [kind_adopt_copyNumber hl.nodup ha]; exact hk) fun e he => ?_
    obtain ⟨c, hc, hcl, rfl⟩ := hkids ha e he
    exact ih c hc hcl
  | other hk _ ih =>
    refine .other (by rw [kind_adopt_copyNumber hl.nodup ha]; exact hk) fun e he => ?_
    obtain ⟨c, hc, hcl, rfl⟩ := hkids ha e he
    exact ih c hc hcl

theorem Nested.grown (h : Nested d n x) (hg : d.Grove L) (hd : d.Grown d') (hx : x < d.size) :
    Nested d' n x :=
  h.congr fun y hy => hd.node_eq y (hg.lt_of_reaches hx (hy.mono d.kids_sub))

theorem Nested.duplicate (h : Nested d n x) (hg : d.Grove L) (hx : x < d.size) :
    Nested (d.duplicate x).2 n d.size := by
  have htree := hg.isTree_reached hx
  have hcopy : Nested (d.duplicate x).2 n (copyNumber d.size (d.reached x) x) :=
    h.adopt htree htree.mem
  rwa [htree.copyNumber_eq] at hcopy

theorem nested_duplicateBranch {bs : Branch} (hg : d.Grove L) (hb : ∀ c ∈ bs.nodes, c < d.size)
    (h : ∀ c ∈ bs.nodes, Nested d n c) :
    ∀ c ∈ (d.duplicateBranch bs).1.nodes, Nested (d.duplicateBranch bs).2 n c := by
  obtain ⟨-, -, hn⟩ := d.duplicateBranch_induction (I := fun b e => d.Grown e ∧
    e.Grove (b.nodes ++ L) ∧ ∀ c ∈ b.nodes, Nested e n c) ⟨.refl d, hg, by simp⟩ (fun _ hI => hI)
    fun {b e x} hx ⟨hgrown, hg', hn⟩ => by
      have hlt : x < e.size := lt_of_lt_of_le (hb x hx) hgrown.size_le
      obtain ⟨hg'', hgrown'⟩ := hg'.duplicate hlt
      refine ⟨hgrown.trans hgrown', hg'', forall_mem_cons.mpr ⟨?_, fun c hc => ?_⟩⟩
      · exact ((h x hx).grown hg hgrown (hb x hx)).duplicate hg' hlt
      · exact (hn c hc).grown hg' hgrown' (hg'.lt_of_mem (mem_append_left _ hc))
  exact fun c hc => hn c (by simpa using hc)

/-- Content has been copied in place of variables. Nodes below `n` are as before. Of the others that
were there, some that were variables hold new nodes now, in which tags are nested at most `m` deep. -/
structure Filled (n m : Nat) (d d' : Document) : Prop where
  node_old : ∀ y < n, d'.node y = d.node y
  node_new : ∀ y, n ≤ y → y < d.size → d'.node y = d.node y ∨
    d.kind y = .variableTag ∧ d'.kind y = .expanded ∧ ∀ c ∈ d'.kids y, d.size ≤ c ∧ Nested d' m c
  above : Above d.size d'

theorem Filled.refl (n m : Nat) (d : Document) : Filled n m d d where
  node_old _ _ := rfl
  node_new _ _ _ := .inl rfl
  above y hy c hc := by
    rw [refs_of_le hy] at hc
    cases hc

theorem Nested.modify {f : Node → Node} (h : Nested d n c) (hc : ¬ Reaches d.kids c x) :
    Nested (d.modify x f) n c :=
  h.congr fun y hy => modify_ne (by rintro rfl; exact hc hy)

theorem Above.not_reaches (h : Above n d) (hc : n ≤ c) (hx : x < n) : ¬ Reaches d.kids c x :=
  fun hr => not_lt.mpr (h.le_of_reaches hc (hr.mono d.kids_sub)) hx

theorem Filled.step (h : Filled n m d d') (hg : d'.Grove L)
    (hsize : d.size ≤ d'.size) (hx : n ≤ x) (hlt : x < d.size) (hvar : d.kind x = .variableTag)
    (hc : ∀ c ∈ content.nodes, c < d.size) (hnest : ∀ c ∈ content.nodes, Nested d' m c) :
    Filled n m d (((d'.duplicateBranch content).2.setKind x .expanded).setChildren x
      (d'.duplicateBranch content).1) := by
  have hc' : ∀ c ∈ content.nodes, c < d'.size := fun c hcmem => lt_of_lt_of_le (hc c hcmem) hsize
  obtain ⟨-, hgrown, hnew⟩ := hg.duplicateBranch hc'
  have hcopy := nested_duplicateBranch hg hc' hnest
  have habove := h.above.fill hg hc' hsize x
  generalize d'.duplicateBranch content = copied at hgrown hnew hcopy habove
  have hlt' : x < copied.2.size := lt_of_lt_of_le hlt (le_trans hsize hgrown.size_le)
  have hnode : ((copied.2.setKind x .expanded).setChildren x copied.1).node x =
      { copied.2.node x with kind := .expanded, branches := [copied.1] } := by
    rw [setKind, setChildren, modify_modify, modify_self hlt']
  have hothers : ∀ {y}, y ≠ x → y < d'.size →
      ((copied.2.setKind x .expanded).setChildren x copied.1).node y = d'.node y := fun hyx hy => by
    rw [setKind, setChildren, modify_modify, modify_ne hyx, hgrown.node_eq _ hy]
  refine ⟨fun y hy => ?_, fun y hy hyd => ?_, ?_⟩
  · have hyx : y ≠ x := ne_of_lt (lt_of_lt_of_le hy hx)
    rw [hothers hyx (lt_trans (lt_of_lt_of_le hy hx) (lt_of_lt_of_le hlt hsize)), h.node_old y hy]
  · by_cases hyx : y = x
    · subst hyx
      refine .inr ⟨hvar, by rw [kind, hnode], fun c hcmem => ?_⟩
      rw [kids, branches, hnode, flatMap_singleton] at hcmem
      refine ⟨le_trans hsize (hnew c hcmem), ?_⟩
      rw [setKind, setChildren, modify_modify]
      exact (hcopy c hcmem).modify fun hr => hgrown.not_reaches (hnew c hcmem)
        (lt_of_lt_of_le hlt hsize) (hr.mono copied.2.kids_sub)
    · have hy' := hothers hyx (lt_of_lt_of_le hyd hsize)
      rcases h.node_new y hy hyd with heq | ⟨hk, hk', hkids⟩
      · exact .inl (hy'.trans heq)
      · refine .inr ⟨hk, by rw [kind_congr hy']; exact hk', fun c hcmem => ?_⟩
        rw [kids_congr hy'] at hcmem
        obtain ⟨hge, hn⟩ := hkids c hcmem
        refine ⟨hge, hn.congr fun z hz => hothers ?_ ?_⟩
        · rintro rfl
          exact h.above.not_reaches hge hlt hz
        · exact hg.lt_of_reaches (hg.lt_of_refs (d'.kids_sub y hcmem))
            (hz.mono d'.kids_sub)
  · exact habove

theorem fillVariable_filled {name : String} (h : d.Grove L) (ha : Above n d)
    (hid : n ≤ id) (hold : ∀ y < n, ∀ c ∈ d.refs y, c < n) (hn : n ≤ d.size)
    (hc : ∀ c ∈ content.nodes, c < n) (hnest : ∀ c ∈ content.nodes, Nested d m c) :
    Filled n m d (fillVariable id name content d) := by
  have hlt : ∀ c ∈ content.nodes, c < d.size := fun c hcmem => lt_of_lt_of_le (hc c hcmem) hn
  refine (h.sustained_foldl_with (I := Filled n m d) (fun {x d'} hx hle h' hfilled => ?_)
    (.refl n m d)).2
  have hxd : x < d.size := h.lt_of_descendant hx
  have hxn : n ≤ x := ha.le_of_reaches hid (reaches_of_enc (encloses_of_descendant hx))
  have hvar : d.kind x = .variableTag := by
    simpa [hasKind] using (mem_filter.mp hx).2
  -- what is below the content is below `n` and has not changed
  have hnest' : ∀ c ∈ content.nodes, Nested d' m c := fun c hcmem =>
    (hnest c hcmem).congr fun y hy => hfilled.node_old y (by
      induction hy with
      | refl => exact hc c hcmem
      | tail _ he ih => exact hold _ ih _ (d.kids_sub _ he))
  split_ifs
  · exact ⟨fill_sustained h' (fun c hcmem => lt_of_lt_of_le (hlt c hcmem) hle)
      (lt_of_lt_of_le hxd hle), hfilled.step h' hle hxn hxd hvar hlt hnest'⟩
  · exact ⟨.refl h', hfilled⟩

theorem Nested.filled (h : Nested d 0 x) (hd : Filled n m d d') (hg : d.Grove L) (ha : Above n d)
    (hx : n ≤ x) (hlt : x < d.size) : Nested d' m x := by
  generalize hzero : 0 = k at h
  induction h with
  | @raw _ x hk =>
    rcases hd.node_new x hx hlt with heq | ⟨hvar, -, -⟩
    · exact .raw (by rw [kind_congr heq]; exact hk)
    · rw [hk] at hvar
      cases hvar
  | tag => cases hzero
  | @other _ x hk _ ih =>
    rcases hd.node_new x hx hlt with heq | ⟨-, hk', hkids⟩
    · refine .other (by rw [kind_congr heq]; exact hk) fun c hc => ?_
      rw [kids_congr heq] at hc
      have hrefs : c ∈ d.refs x := d.kids_sub x hc
      exact ih c hc (ha x hx c hrefs) (hg.lt_of_refs hrefs) hzero
    · exact .other (by rw [hk']; exact Kind.noConfusion) fun c hc => (hkids c hc).2

/-- A template in which no tags are left, with what a copy needs. -/
structure Settled (d : Document) : Prop where
  grove : d.Grove [root]
  nested : ∀ c ∈ d.kids root, Nested d 0 c

theorem embed_eq (template d : Document) :
    embed template d = (d.size, (d.graft template root).2.setKind d.size .expanded) := rfl

theorem embed_nested (ht : Settled template) (h : d.Grove L) :
    d.Grown (embed template d).2 ∧ d.size < (embed template d).2.size ∧
      (embed template d).2.kind d.size = .expanded ∧
      ∀ c ∈ (embed template d).2.kids d.size, Nested (embed template d).2 0 c := by
  have hroot := root_lt ht.grove
  have htree := ht.grove.isTree_reached hroot
  obtain ⟨hg, hgrown⟩ := h.graft ht.grove hroot
  have hlt : d.size < (d.graft template root).2.size := hg.lt_head
  have hrefs : ∀ y, ((d.graft template root).2.setKind d.size .expanded).refs y =
      (d.graft template root).2.refs y := fun y =>
    modify_of_eq Node.references rfl
  have hkids : ((d.graft template root).2.setKind d.size .expanded).kids d.size =
      (d.graft template root).2.kids d.size :=
    modify_of_eq (fun node => node.branches.flatMap Branch.nodes) rfl
  rw [embed_eq]
  refine ⟨⟨?_, fun y hy => ?_, fun y hy => ?_⟩, ?_, ?_, fun c hc => ?_⟩
  · rw [setKind, size_modify]
    exact hgrown.size_le
  · rw [setKind, modify_ne (ne_of_lt hy), hgrown.node_eq y hy]
  · rw [hrefs]
    exact hgrown.refs_ge y hy
  · rwa [setKind, size_modify]
  · rw [kind, setKind, modify_self hlt]
  · rw [hkids] at hc
    have hcopy : Nested (d.graft template root).2 0 c := by
      rw [graft, ← htree.copyNumber_eq (k := d.size), kids_adopt_copyNumber htree.nodup htree.mem] at hc
      obtain ⟨e, he, rfl⟩ := mem_map.mp hc
      exact (ht.nested e he).adopt htree
        (htree.closed root htree.mem e (template.kids_sub root he))
    refine hcopy.modify fun hr => ?_
    exact hg.not_reaches_mem (kids_sub _ _ hc) (hr.mono (kids_sub _))

/-- A new node has taken the place of the tag `t` with the owner `p`. Tags are nested at most `n` deep
in it. -/
structure Decorated (n : Nat) (d d' : Document) (p t : NodeId) : Prop
    extends d.Exchanged d' p t d.size where
  size_lt : d.size < d'.size
  kind_new : d'.kind d.size = .expanded
  above : ∀ y, d.size ≤ y → ∀ c ∈ d'.kids y, d.size ≤ c
  nested : ∀ c ∈ d'.kids d.size, Nested d' n c

theorem Decorated.reaches (h : Decorated n d d' p t) (hg : d.Grove L) (henc : d.Encloses root t) :
    Reaches d'.kids root d.size := by
  obtain ⟨q, hq, hqt⟩ := Relation.TransGen.tail'_iff.mp henc
  obtain rfl := hg.owner_eq (d.kids_sub p h.mem_owner) (d.kids_sub q hqt)
  have hpath : ∀ {y}, Reaches d.kids y p → Reaches d'.kids y p := fun hy => by
    induction hy using Relation.ReflTransGen.head_induction_on with
    | refl => exact .refl
    | @head y c hc hr ih =>
      have hyp : y ≠ p := by
        rintro rfl
        exact hg.not_reaches_mem (d.kids_sub y hc) (Reaches.mono d.kids_sub hr)
      refine .head ?_ ih
      rwa [kids_congr (h.node_eq y (lt_of_ref (d.kids_sub y hc)) hyp)]
  exact (hpath hq).tail ((h.mem_kids hg).mpr (.inr rfl))

theorem decorated (ht : Settled template) (h : d.Grove (root :: L))
    (henc : d.Encloses root t) (hnest : ∀ c ∈ d.kids t, Nested d n c) (name : String) :
    ∃ p, Decorated n d ((fillVariable (embed template d).1 name ((embed template d).2.children t)
      (embed template d).2).replaceNode t [.node (embed template d).1]).2 p t := by
  obtain ⟨hgrown, hlt, hkind, hzero⟩ := embed_nested ht h
  have hembed := (embed_grove ht.grove h).1
  have hnode : (embed template d).1 = d.size := rfl
  generalize embed template d = e at hgrown hlt hkind hzero hembed hnode
  obtain ⟨node, e⟩ := e
  dsimp only at *
  subst hnode
  -- the owner of the tag was there
  obtain ⟨p, -, hp⟩ := Relation.TransGen.tail'_iff.mp henc
  have hpd : p < d.size := lt_of_ref (d.kids_sub p hp)
  have htd : t < d.size := h.lt_of_refs (d.kids_sub p hp)
  -- the content of the tag
  have hcontent : ∀ c ∈ (e.children t).nodes, c ∈ d.kids t := fun c hc => by
    rw [← kids_congr (hgrown.node_eq t htd)]
    exact mem_kids_of_children hc
  have hcd : ∀ c ∈ (e.children t).nodes, c < d.size := fun c hc =>
    h.lt_of_refs (d.kids_sub t (hcontent c hc))
  have hfilled : Filled d.size n e (fillVariable d.size name (e.children t) e) := by
    refine fillVariable_filled hembed hgrown.refs_ge (le_refl _) (fun y hy c hc => ?_)
      hgrown.size_le hcd fun c hc => (hnest c (hcontent c hc)).grown h hgrown (hcd c hc)
    rw [refs, hgrown.node_eq y hy] at hc
    exact h.lt_of_refs hc
  obtain ⟨hfill, habove⟩ := fillVariable_sustained hembed
    (fun c hc => lt_of_lt_of_le (hcd c hc) hgrown.size_le) hgrown.size_le hgrown.refs_ge d.size name
  generalize fillVariable d.size name (e.children t) e = f at hfilled hfill habove
  have hold : ∀ y < d.size, f.node y = d.node y := fun y hy =>
    (hfilled.node_old y hy).trans (hgrown.node_eq y hy)
  -- what was filled is not the copy itself
  have hself : f.node d.size = e.node d.size := by
    rcases hfilled.node_new d.size (le_refl _) hlt with heq | ⟨hvar, -, -⟩
    · exact heq
    · rw [hkind] at hvar
      cases hvar
  have hnested : ∀ c ∈ f.kids d.size, Nested f n c := fun c hc => by
    rw [kids_congr hself] at hc
    have hrefs := e.kids_sub _ hc
    exact (hzero c hc).filled hfilled hembed hgrown.refs_ge (hgrown.refs_ge _ (le_refl _) c hrefs)
      (hembed.lt_of_refs hrefs)
  have henc' : f.Encloses root t := Relation.TransGen.mono (fun y c hc => by
    rwa [kids_congr (hold y (lt_of_ref (d.kids_sub y hc)))]) _ _ henc
  obtain ⟨q, hswap⟩ := hfill.grove.swapped d.size
    (hfill.grove.lt_of_mem (mem_cons_of_mem _ mem_cons_self)) henc'
  obtain rfl : q = p := by
    have hpf : t ∈ f.kids p := by rwa [kids_congr (hold p hpd)]
    exact hfill.grove.owner_eq (f.kids_sub q hswap.mem_owner) (f.kids_sub p hpf)
  have hnew : ∀ y, d.size ≤ y → (f.replaceNode t [.node d.size]).2.node y = f.node y := fun y hy =>
    hswap.node_eq y (ne_of_gt (lt_of_lt_of_le hpd hy))
  have hsize : d.size < (f.replaceNode t [.node d.size]).2.size := by
    rw [hswap.size_eq]
    exact lt_of_lt_of_le hlt hfill.size_le
  refine ⟨q, ⟨le_of_lt hsize, fun y hy hyq => ?_, ?_, ?_⟩, hsize, ?_, fun y hy c hc => ?_,
    fun c hc => ?_⟩
  · rw [hswap.node_eq y hyq, hold y hy]
  · rw [hswap.kind_eq, kind_congr (hold q hpd)]
  · rw [← kids_congr (hold q hpd)]
    exact hswap.kids_eq
  · rw [kind_congr (hnew _ (le_refl _)), kind_congr hself, hkind]
  · rw [kids_congr (hnew y hy)] at hc
    exact habove y hy c (f.kids_sub y hc)
  · rw [kids_congr (hnew _ (le_refl _))] at hc
    have hge : d.size ≤ c := habove _ (le_refl _) c (f.kids_sub _ hc)
    exact (hnested c hc).congr fun y hy =>
      hnew y (habove.le_of_reaches hge (hy.mono f.kids_sub))

end Template

end Stencil
