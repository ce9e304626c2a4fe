import Stencil.Proofs.Template.Nested
import Stencil.Proofs.Template.Watching

/-!
# Decorate tags give way

The outermost decorate tags below a node are expanded one after the other. What takes the place of a
tag has tags nested less deep in it, and is expanded before the next tag. Expanding a tag changes
nothing inside another one. So **as many levels as tags are nested deep are enough**
(`expandDecorates_alike`): what would be done below the last level does not matter, and no tags are
left outside raw output.
-/

namespace Stencil

open Document List

variable {levels levels' : Nat}

namespace Template

variable {d d1 d2 d3 : Document} {L P : List NodeId} {c id p t x y : NodeId} {n k : Nat}

/-- The decorate tags below a node that are in no other one and not in raw output. -/
def outerTags (d : Document) (id : NodeId) : List NodeId :=
  d.descendants id [.decorate] [.decorate, .rawOutput]

def isOpen (d : Document) (x : NodeId) : Bool := !d.hasKind x [.decorate, .rawOutput]

theorem isOpen_iff : isOpen d x ↔ d.kind x ≠ .decorate ∧ d.kind x ≠ .rawOutput := by
  simp [isOpen, hasKind]

section

variable (h : d.Grove L) (hid : id < d.size)
include h hid

theorem mem_outerTags : t ∈ outerTags d id ↔ d.Met (isOpen d) id t ∧ d.kind t = .decorate := by
  rw [outerTags, mem_descendants_iff (h.shallow_kids hid), mem_singleton]
  rfl

omit hid in
theorem nodup_outerTags (id : NodeId) : (outerTags d id).Nodup :=
  (h.nodup_walk id _).filter _

theorem eq_of_mem_outerTags (hx : x ∈ outerTags d id) (ht : t ∈ outerTags d id)
    (hr : Reaches d.kids x t) : x = t := by
  obtain ⟨hmet, hk⟩ := (mem_outerTags h hid).mp hx
  rcases ((mem_outerTags h hid).mp ht).1.of_reaches h hmet.encloses hr with rfl | ⟨-, hopen⟩
  · rfl
  · exact absurd hk (isOpen_iff.mp hopen).1

omit h hid in
theorem nested_of_met (hnest : ∀ c ∈ d.kids id, Nested d n c) (hx : d.Met (isOpen d) id x) :
    Nested d n x := by
  induction hx with
  | kid hc => exact hnest _ hc
  | deeper hc hopen _ ih =>
    obtain ⟨hk, hraw⟩ := isOpen_iff.mp hopen
    exact ih ((hnest _ hc).kids_of_other hraw hk)

end

/-- The decorate tags below a node that are not in raw output, in the order of the document. -/
def tags (d : Document) (id : NodeId) : List NodeId := d.descendants id [.decorate] [.rawOutput]

def isTag (d : Document) (x : NodeId) : Bool := d.hasKind x [.decorate]

theorem isTag_iff : isTag d x ↔ d.kind x = .decorate := by
  simp [isTag, hasKind]

theorem tags_eq_filter (d : Document) (id : NodeId) :
    tags d id = (d.walk id (isCooked d)).filter (isTag d) := rfl

theorem outerTags_eq_filter (d : Document) (id : NodeId) :
    outerTags d id = (d.walk id (isOpen d)).filter (isTag d) := rfl

theorem filter_walkFrom_tag (hk : d.kind t = .decorate) :
    (d.walkFrom (isCooked d) t).filter (isTag d) = t :: tags d t := by
  have hcooked : isCooked d t := isCooked_iff.mpr (by rw [hk]; exact Kind.noConfusion)
  rw [walkFrom, if_pos hcooked, filter_cons_of_pos (isTag_iff.mpr hk), tags_eq_filter]

theorem filter_walkFrom_other (hk : d.kind x ≠ .decorate) (hraw : d.kind x ≠ .rawOutput) :
    (d.walkFrom (isCooked d) x).filter (isTag d) = tags d x := by
  rw [walkFrom, if_pos (isCooked_iff.mpr hraw), filter_cons_of_neg (mt isTag_iff.mp hk), tags_eq_filter]

theorem tags_eq (h : d.Grove L) (hid : id < d.size) :
    tags d id = (outerTags d id).flatMap fun t => t :: tags d t := by
  have hshallow := h.shallow_kids hid
  generalize d.size = n at hshallow
  induction n generalizing id with
  | zero => exact hshallow.elim
  | succ n ih =>
    rw [outerTags_eq_filter, tags_eq_filter, h.walk_eq hid, h.walk_eq hid, filter_flatMap,
      filter_flatMap, flatMap_assoc]
    refine flatMap_congr fun c hc => ?_
    by_cases hk : d.kind c = .decorate
    · have hclosed : ¬ isOpen d c := fun ho => (isOpen_iff.mp ho).1 hk
      rw [filter_walkFrom_tag hk, walkFrom, if_neg hclosed, filter_cons_of_pos (isTag_iff.mpr hk)]
      simp
    · by_cases hraw : d.kind c = .rawOutput
      · have hclosed : ¬ isOpen d c := fun ho => (isOpen_iff.mp ho).2 hraw
        have hclosed' : ¬ isCooked d c := fun hc => isCooked_iff.mp hc hraw
        have hno := mt isTag_iff.mp hk
        rw [walkFrom, walkFrom, if_neg hclosed, if_neg hclosed', filter_cons_of_neg hno]
        rfl
      · have hopen : isOpen d c := isOpen_iff.mpr ⟨hk, hraw⟩
        rw [filter_walkFrom_other hk hraw, walkFrom, if_pos hopen,
          filter_cons_of_neg (mt isTag_iff.mp hk), ← outerTags_eq_filter]
        exact ih (h.lt_of_refs (d.kids_sub id hc)) (hshallow c hc)

theorem isTag_congr (h : d1.kind x = d.kind x) : isTag d1 x = isTag d x := by
  rw [isTag, isTag, hasKind, hasKind, h]

theorem tags_congr (h : d.Grove L) (hx : x < d.size) (hsize : d.size ≤ d1.size)
    (heq : ∀ y, Reaches d.kids x y → d1.node y = d.node y) : tags d1 x = tags d x := by
  have hwalk : d1.walk x (isCooked d1) = d.walk x (isCooked d) := by
    rw [walk, walk, ← below_eq_of_shallow (h.shallow_kids hx) hsize]
    exact below_eq_of_reaches (fun y hy => kids_congr (heq y hy)) fun y hy =>
      isCooked_congr (kind_congr (heq y hy))
  rw [tags_eq_filter, tags_eq_filter, hwalk]
  exact filter_congr fun y hy =>
    isTag_congr (kind_congr (heq y (encloses_of_below hy).to_reflTransGen))

theorem le_of_reaches (h : ∀ y, n ≤ y → ∀ c ∈ d.kids y, n ≤ c) (hx : n ≤ x)
    (hr : Reaches d.kids x y) : n ≤ y := by
  induction hr with
  | refl => exact hx
  | tail _ hc ih => exact h _ ih _ hc

/-- The tags `P` have given way to new nodes without tags. Everything else is as before. -/
structure Cleared (d : Document) (P : List NodeId) (d' : Document) : Prop where
  size_le : d.size ≤ d'.size
  kind_eq : ∀ y < d.size, d'.kind y = d.kind y
  kids : ∀ y < d.size, ∀ c ∈ d'.kids y, c ∈ d.kids y ∧ c ∉ P ∨ d.size ≤ c ∧ Nested d' 0 c
  kept : ∀ y < d.size, ∀ c ∈ d.kids y, c ∉ P → c ∈ d'.kids y
  node_eq : ∀ y < d.size, (∀ c ∈ d.kids y, c ∉ P) → d'.node y = d.node y
  above : ∀ y, d.size ≤ y → ∀ c ∈ d'.kids y, d.size ≤ c

namespace Cleared

theorem refl (d : Document) : Cleared d [] d where
  size_le := le_refl _
  kind_eq _ _ := rfl
  kids _ _ _ hc := .inl ⟨hc, not_mem_nil⟩
  kept _ _ _ hc _ := hc
  node_eq _ _ _ := rfl
  above y hy c hc := by
    have hrefs := d.kids_sub y hc
    rw [refs_of_le hy] at hrefs
    cases hrefs

theorem nested (h : Cleared d (outerTags d id) d1) (hg : d.Grove L) (hid : id < d.size) :
    ∀ c ∈ d1.kids id, Nested d1 0 c := by
  have hbelow : ∀ {n x}, Shallow d.kids n x → d.Met (isOpen d) id x → x ∉ outerTags d id →
      Nested d1 0 x := by
    intro n
    induction n with
    | zero => exact fun hs => hs.elim
    | succ n ih =>
      intro x hs hx hout
      have hxd : x < d.size := hg.lt_of_reaches hid (reaches_of_enc hx.encloses)
      have hk : d.kind x ≠ .decorate := fun hk => hout ((mem_outerTags hg hid).mpr ⟨hx, hk⟩)
      by_cases hraw : d.kind x = .rawOutput
      · exact .raw (by rw [h.kind_eq x hxd, hraw])
      · refine .other (by rw [h.kind_eq x hxd]; exact hk) fun c hc => ?_
        rcases h.kids x hxd c hc with ⟨hc, hout⟩ | ⟨-, hnew⟩
        · exact ih (hs c hc) (hx.tail (isOpen_iff.mpr ⟨hk, hraw⟩) hc) hout
        · exact hnew
  intro c hc
  rcases h.kids id hid c hc with ⟨hc, hout⟩ | ⟨-, hnew⟩
  · exact hbelow ((hg.shallow_kids hid).child hc) (.kid hc) hout
  · exact hnew

section

variable (h : Cleared d P d1) (hg : d.Grove L) (hid : id < d.size) (hP : P ⊆ outerTags d id)
  (ht : t ∈ outerTags d id) (htP : t ∉ P)
include h hg hid hP ht htP

theorem encloses (hroot : Reaches d.kids root id) : d1.Encloses root t := by
  have hmet := ((mem_outerTags hg hid).mp ht).1
  have henc : d.Encloses root t := hmet.encloses.trans_right hroot
  have hedge : ∀ {y c}, c ∈ d.kids y → Reaches d.kids c t → c ∈ d1.kids y := by
    intro y c hc hr
    refine h.kept y (lt_of_ref (d.kids_sub y hc)) c hc fun hcP => ?_
    exact htP (eq_of_mem_outerTags hg hid (hP hcP) ht hr ▸ hcP)
  have hpath : ∀ {y}, d.Encloses y t → d1.Encloses y t := fun hy => by
    induction hy using Relation.TransGen.head_induction_on with
    | single hc => exact .single (hedge hc .refl)
    | head hc hr ih => exact .head (hedge hc hr.to_reflTransGen) ih
  exact hpath henc

theorem node_eq_of_reaches (hr : Reaches d.kids t y) : d1.node y = d.node y := by
  have hmet := ((mem_outerTags hg hid).mp ht).1
  have htd : t < d.size := hg.lt_of_reaches hid (reaches_of_enc hmet.encloses)
  refine h.node_eq y (hg.lt_of_reaches htd (hr.mono d.kids_sub)) fun c hc hcP => ?_
  obtain rfl := eq_of_mem_outerTags hg hid ht (hP hcP) (hr.tail hc)
  exact htP hcP

theorem nested_kids (hnest : ∀ c ∈ d.kids id, Nested d (n + 1) c) : ∀ c ∈ d1.kids t, Nested d1 n c := by
  have hsame : ∀ y, Reaches d.kids t y → d1.node y = d.node y := fun y hr =>
    node_eq_of_reaches h hg hid hP ht htP hr
  obtain ⟨hmet, hk⟩ := (mem_outerTags hg hid).mp ht
  intro c hc
  rw [kids_congr (hsame t .refl)] at hc
  exact ((nested_of_met hnest hmet).kids_of_tag hk c hc).congr fun y hr =>
    hsame y ((Reaches.child hc).trans hr)

omit hP htP in
theorem step (hg1 : d1.Grove L) (hdec : Decorated n d1 d2 p t) (hg2 : d2.Grove L)
    (hnext : Cleared d2 (outerTags d2 d1.size) d3) : Cleared d (P ++ [t]) d3 := by
  have htd : t < d.size := hg.lt_of_reaches hid
    (reaches_of_enc ((mem_outerTags hg hid).mp ht).1.encloses)
  -- the owner of the tag is as it was at the start
  have hpd : p < d.size := by
    by_contra hge
    exact not_lt.mpr (h.above p (not_lt.mp hge) t hdec.mem_owner) htd
  have hp : t ∈ d.kids p := by
    rcases h.kids p hpd t hdec.mem_owner with ⟨hp, -⟩ | ⟨hge, -⟩
    · exact hp
    · exact absurd htd (not_lt.mpr hge)
  -- the last changes are to new nodes
  have hlast : ∀ y < d1.size, d3.node y = d2.node y := by
    intro y hy
    refine hnext.node_eq y (lt_trans hy hdec.size_lt) fun c hc hout => ?_
    have henc := ((mem_outerTags hg2 hdec.size_lt).mp hout).1.encloses
    obtain ⟨q, hq, hqc⟩ := Relation.TransGen.tail'_iff.mp henc
    obtain rfl := hg2.owner_eq (d2.kids_sub y hc) (d2.kids_sub q hqc)
    exact not_lt.mpr (le_of_reaches hdec.above (le_refl _) hq) hy
  have hothers : ∀ y < d1.size, y ≠ p → d3.node y = d1.node y := fun y hy hyp =>
    (hlast y hy).trans (hdec.node_eq y hy hyp)
  have hpd1 : p < d1.size := lt_of_lt_of_le hpd h.size_le
  have hnew : Nested d3 0 d1.size := by
    refine .other ?_ (hnext.nested hg2 hdec.size_lt)
    rw [hnext.kind_eq _ hdec.size_lt, hdec.kind_new]
    exact Kind.noConfusion
  have hdone : ∀ {c}, d.size ≤ c → c < d1.size → Nested d1 0 c → Nested d3 0 c := by
    intro c hc hlt hn
    refine hn.congr fun z hz => hothers z ?_ ?_
    · exact hg1.lt_of_reaches hlt (hz.mono d1.kids_sub)
    · exact ne_of_gt (lt_of_lt_of_le hpd (le_of_reaches h.above hc hz))
  have hold : ∀ {y}, y < d.size → ∀ c ∈ d1.kids y, c ≠ t →
      c ∈ d.kids y ∧ c ∉ P ++ [t] ∨ d.size ≤ c ∧ Nested d3 0 c := by
    intro y hy c hc hct
    rcases h.kids y hy c hc with ⟨hcd, hcP⟩ | ⟨hge, hn⟩
    · exact .inl ⟨hcd, by simp [hcP, hct]⟩
    · exact .inr ⟨hge, hdone hge (hg1.lt_of_refs (d1.kids_sub y hc)) hn⟩
  have hlt1 : ∀ {y}, y < d.size → y < d1.size := fun hy => lt_of_lt_of_le hy h.size_le
  refine ⟨?_, fun y hy => ?_, fun y hy c hc => ?_, fun y hy c hc hout => ?_, fun y hy hout => ?_,
    fun y hy c hc => ?_⟩
  · exact le_trans h.size_le (le_trans (le_of_lt hdec.size_lt) hnext.size_le)
  · by_cases hyp : y = p
    · rw [hyp, kind_congr (hlast p hpd1), hdec.kind_eq, h.kind_eq p hpd]
    · rw [kind_congr (hothers y (hlt1 hy) hyp), h.kind_eq y hy]
  · by_cases hyp : y = p
    · rw [hyp, kids_congr (hlast p hpd1), hdec.mem_kids hg1] at hc
      rw [hyp]
      rcases hc with ⟨hc, hct⟩ | rfl
      · exact hold hpd c hc hct
      · exact .inr ⟨h.size_le, hnew⟩
    · rw [kids_congr (hothers y (hlt1 hy) hyp)] at hc
      refine hold hy c hc fun hct => hyp ?_
      subst hct
      exact hg1.owner_eq (d1.kids_sub y hc) (d1.kids_sub p hdec.mem_owner)
  · rw [mem_append, mem_singleton, not_or] at hout
    have hc1 := h.kept y hy c hc hout.1
    by_cases hyp : y = p
    · rw [hyp, kids_congr (hlast p hpd1), hdec.mem_kids hg1]
      exact .inl ⟨hyp ▸ hc1, hout.2⟩
    · rwa [kids_congr (hothers y (hlt1 hy) hyp)]
  · have hyp : y ≠ p := by
      rintro rfl
      exact hout t hp (mem_append_right _ mem_cons_self)
    rw [hothers y (hlt1 hy) hyp]
    exact h.node_eq y hy fun c hc hcP => hout c hc (mem_append_left _ hcP)
  · rcases lt_or_ge y d1.size with hlt | hge
    · rw [kids_congr (hothers y hlt (ne_of_gt (lt_of_lt_of_le hpd hy)))] at hc
      exact h.above y hy c hc
    · refine le_trans h.size_le ?_
      rcases lt_or_ge y d2.size with hlt | hge2
      · rcases hnext.kids y hlt c hc with ⟨hc, -⟩ | ⟨hc, -⟩
        · exact hdec.above y hge c hc
        · exact le_trans (le_of_lt hdec.size_lt) hc
      · exact le_trans (le_of_lt hdec.size_lt) (hnext.above y hge2 c hc)

end

end Cleared

/-- A loader that gives templates without decorate tags. -/
structure Loader.Settles (load : Loader) : Prop where
  settled : ∀ {name : String} {place : Place} {s s' : Session} {d : Document},
    load name place s = .ok d s' → Settled d

theorem Loader.Settles.plants {load : Loader} (h : load.Settles) : load.Plants :=
  ⟨fun hok => (h.settled hok).grove⟩

variable {load g : Loader} {j j' : Job}

theorem expandDecorate_decorated (hl : load.Settles) (hg : j.document.Grove (root :: L))
    (henc : j.document.Encloses root t) (hnest : ∀ c ∈ j.document.kids t, Nested j.document n c)
    {node : NodeId} (hok : expandDecorate load t j = .ok node j') :
    node = j.document.size ∧ ∃ p, Decorated n j.document j'.document p t := by
  obtain ⟨_, _, _, _, hload, rfl, rfl, rfl⟩ := expandDecorate_eq_ok hok
  exact ⟨rfl, decorated (hl.settled hload) hg henc hnest "decorater.content"⟩

/-- Expands the decorate tags below a node and those in what takes their place. Below the last level
`cut` decides what is done. -/
def expandDecoratesUpTo (cut : NodeId → Work Unit) (load : Loader) :
    (levels : Nat) → NodeId → Work Unit
  | 0, id => cut id
  | levels + 1, id => do
    ((← Work.document).descendants id [.decorate] [.decorate, .rawOutput]).forM fun tag => do
      expandDecoratesUpTo cut load levels (← expandDecorate load tag)

theorem expandDecoratesBelow_eq (load : Loader) (levels : Nat) (id : NodeId) :
    expandDecoratesBelow load levels id = expandDecoratesUpTo (fun _ => pure ()) load levels id := by
  induction levels generalizing id with
  | zero => rfl
  | succ levels ih =>
    rw [expandDecoratesBelow, expandDecoratesUpTo]
    simp only [ih]

section Along

variable {A : ∀ {α : Type}, Work α → Work α → Job → Prop} (hA : Along A)
include hA

theorem expandDecorates_along {E : Job → List NodeId → Prop} (hl : load.Settles)
    (hexpand : ∀ {j : Job} {t : NodeId} {ts : List NodeId}, E j (t :: (tags j.document t ++ ts)) →
      A (expandDecorate load t) (expandDecorate g t) j ∧ ∀ {n j' p},
        Decorated n j.document j'.document p t → j.document.Grove (root :: L) →
        j'.document.Grove (root :: L) → expandDecorate load t j = .ok j.document.size j' →
        E j' (tags j'.document j.document.size ++ ts)) (cut cut' : NodeId → Work Unit)
    {l : List NodeId} (hn : n < levels) (hn' : n < levels')
    (hg : j.document.Grove (root :: L)) (hid : Reaches j.document.kids root id)
    (hnest : ∀ c ∈ j.document.kids id, Nested j.document n c) (hE : E j (tags j.document id ++ l)) :
    A (expandDecoratesUpTo cut load levels id) (expandDecoratesUpTo cut' g levels' id) j ∧
      ∀ j', expandDecoratesUpTo cut load levels id j = .ok () j' → j'.document.Grove (root :: L) ∧
        Cleared j.document (outerTags j.document id) j'.document ∧ E j' l := by
  induction n using Nat.strong_induction_on generalizing j id levels levels' l with
  | _ n ih =>
    obtain ⟨levels, rfl⟩ := Nat.exists_eq_succ_of_ne_zero (ne_of_gt (Nat.zero_lt_of_lt hn))
    obtain ⟨levels', rfl⟩ := Nat.exists_eq_succ_of_ne_zero (ne_of_gt (Nat.zero_lt_of_lt hn'))
    have hlt : id < j.document.size :=
      hg.lt_of_reaches (root_lt hg) (hid.mono j.document.kids_sub)
    have hout := nodup_outerTags hg id
    rw [expandDecoratesUpTo, expandDecoratesUpTo]
    refine (hA.forM (Q := fun P us j1 => j1.document.Grove (root :: L) ∧
      Cleared j.document P j1.document ∧ E j1 (us.flatMap (fun t => t :: tags j.document t) ++ l))
      (fun {P us t j1} hP hinv => ?_) ⟨hg, .refl _, by rwa [tags_eq hg hlt] at hE⟩).imp_left hA.document
    change P ++ t :: us = outerTags j.document id at hP
    obtain ⟨hg1, hcleared, hE1⟩ := hinv
    have hsub : P ⊆ outerTags j.document id := hP ▸ subset_append_left P _
    have ht : t ∈ outerTags j.document id := hP ▸ mem_append_right P mem_cons_self
    have htP : t ∉ P := fun hmem =>
      (nodup_append.mp (hP ▸ hout)).2.2 t hmem t mem_cons_self rfl
    -- there is a level left, since there is a tag
    obtain ⟨hmet, hk⟩ := (mem_outerTags hg hlt).mp ht
    obtain ⟨n, rfl⟩ : ∃ k, n = k + 1 := by
      refine Nat.exists_eq_succ_of_ne_zero fun hzero => ?_
      subst hzero
      exact (nested_of_met hnest hmet).kind_ne_of_zero hk
    have henc := hcleared.encloses hg hlt hsub ht htP hid
    have hkids := hcleared.nested_kids hg hlt hsub ht htP hnest
    -- nothing has changed in the tag
    have htags : tags j1.document t = tags j.document t :=
      tags_congr hg (hg.lt_of_reaches hlt (reaches_of_enc hmet.encloses)) hcleared.size_le
        fun y hy => hcleared.node_eq_of_reaches hg hlt hsub ht htP hy
    rw [flatMap_cons, cons_append, cons_append, append_assoc, ← htags] at hE1
    obtain ⟨hfirst, hnext⟩ := hexpand hE1
    have hafter : ∀ {node j2}, expandDecorate load t j1 = .ok node j2 →
        A (expandDecoratesUpTo cut load levels node) (expandDecoratesUpTo cut' g levels' node) j2 ∧
          ∀ j', expandDecoratesUpTo cut load levels node j2 = .ok () j' →
            j'.document.Grove (root :: L) ∧ Cleared j.document (P ++ [t]) j'.document ∧
              E j' (us.flatMap (fun t => t :: tags j.document t) ++ l) := by
      intro node j2 hok
      obtain ⟨rfl, p, hdec⟩ := expandDecorate_decorated hl hg1 henc hkids hok
      have hg2 := ((expandDecorate_sustains hl.plants t).sustained hg1 hok).grove
      obtain ⟨hbelow, hdone⟩ := ih n (Nat.lt_succ_self n) (Nat.lt_of_succ_lt_succ hn)
        (Nat.lt_of_succ_lt_succ hn') hg2 (hdec.reaches hg1 henc) hdec.nested (hnext hdec hg1 hg2 hok)
      refine ⟨hbelow, fun j' hok' => ?_⟩
      obtain ⟨hg', hcleared', hE'⟩ := hdone j' hok'
      exact ⟨hg', hcleared.step hg hlt ht hg1 hdec hg2 hcleared', hE'⟩
    refine ⟨hA.bind hfirst fun _ _ hok => (hafter hok).1, fun j' hok => ?_⟩
    obtain ⟨node, j2, hok2, hok⟩ := bind_eq_ok.mp hok
    exact (hafter hok2).2 j' hok

end Along

theorem expandDecorates_alike {I : Session → Prop} (hI : Session.Stable I) (hr : load.Resumes)
    (hl : load.Settles) (hagree : Loader.AgreeOn I load g) (cut cut' : NodeId → Work Unit)
    (hn : n < levels) (hn' : n < levels') (hj : I j.session)
    (hg : j.document.Grove (root :: L)) (hid : Reaches j.document.kids root id)
    (hnest : ∀ c ∈ j.document.kids id, Nested j.document n c) :
    expandDecoratesUpTo cut load levels id j = expandDecoratesUpTo cut' g levels' id j ∧
      ∀ j', expandDecoratesUpTo cut load levels id j = .ok () j' →
        I j'.session ∧ j'.document.Grove (root :: L) ∧
          Cleared j.document (outerTags j.document id) j'.document := by
  have hA := agree_along hI
  obtain ⟨heq, hdone⟩ := expandDecorates_along (E := fun j _ => I j.session) (l := []) hA.toAlong hl
    (fun {j t _} hj => ⟨hA.expandDecorate (hagree.task hI hr) t j, fun _ _ _ hok =>
      (hA.expandDecorate (hagree.task hI hr) t j hj).2 _ _ hok⟩) cut cut' hn hn' hg hid hnest hj
  refine ⟨(heq hj).1, fun j' hok => ?_⟩
  obtain ⟨hg', hcleared, hj'⟩ := hdone j' hok
  exact ⟨hj', hg', hcleared⟩

end Template

end Stencil
