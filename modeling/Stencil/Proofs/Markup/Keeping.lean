import Stencil.Markup.Process
import Stencil.Proofs.Blocks.Keeping
import Stencil.Proofs.Media.Keeping

/-!
# Passes over markup keep trees apart

Most passes over the markup of a template only take nodes away, or put text in their place. The one that
moves nodes merges elements: the content of later elements goes to the end of the first one, which is
below none of them (`Grove.pairwise_below`). So **each pass leaves trees**; there is a lemma for each.
-/

namespace Stencil

open List

variable {d : Document} {L : List NodeId} {id source target x : NodeId} {j j' : Job}

namespace Document

variable {y : NodeId} {n : Nat}

theorem Grove.pairwise_below (h : d.Grove L) (enter : NodeId → Bool) (n : Nat) (id : NodeId) :
    (d.below enter n id).Pairwise fun x y => ¬ Reaches d.refs y x := by
  by_cases hlt : id < d.size
  · exact (h.uniqueOwner hlt).pairwise_below .refl enter n
  · have hnone : d.below enter n id = [] := eq_nil_iff_forall_not_mem.mpr fun x hx => by
      obtain ⟨c, hc, -⟩ := Relation.TransGen.head'_iff.mp (encloses_of_below hx)
      exact hlt (lt_of_ref (d.kids_sub id hc))
    rw [hnone]
    exact .nil

theorem Grove.nodup_walk (h : d.Grove L) (id : NodeId) (enter : NodeId → Bool) :
    (d.walk id enter).Nodup :=
  (h.pairwise_below enter d.size id).imp fun {a b} hr (heq : a = b) => hr (heq ▸ .refl)

theorem Grove.sustained_append {bs : Branch} (h : d.Grove (bs.nodes ++ L)) (ht : target < d.size)
    (hb : ∀ c ∈ bs.nodes, ¬ Reaches d.refs c target) :
    d.Sustained (bs.foldl (fun d f => d.append target 0 f) d) L ∧ ∀ {y : NodeId},
      Reaches (bs.foldl (fun d f => d.append target 0 f) d).refs y target ↔
        Reaches d.refs y target := by
  induction bs generalizing d with
  | nil => exact ⟨.refl h, .rfl⟩
  | cons f bs ih =>
    rw [foldl_cons]
    have hcons : Branch.nodes (f :: bs) = f.node?.toList ++ Branch.nodes bs := by
      cases f <;> rfl
    rw [hcons] at hb h
    have hg : (d.append target 0 f).Grove (Branch.nodes bs ++ L) := by
      refine Grove.modify (A := f.node?.toList) (B := []) ?_ ht ?_ fun c hc => hb c ?_
      · exact (append_assoc _ _ _) ▸ h
      · have hp := (d.node target).refs_setBranch 0 (((d.node target).branch 0).push f)
        rw [Branch.nodes_push] at hp
        rw [perm_iff_count] at hp ⊢
        intro e
        have := hp e
        simp only [count_append, count_nil] at this ⊢
        omega
      · exact mem_append_left _ hc
    have hsize : (d.append target 0 f).size = d.size := size_modify _ _ _
    obtain ⟨hs, hr⟩ := ih hg (hsize ▸ ht) fun c hc hcr =>
      hb c (mem_append_right _ hc) (reaches_modify.mp hcr)
    exact ⟨⟨hs.grove, hsize ▸ hs.size_le⟩, hr.trans reaches_modify⟩

end Document

namespace Markup

open Document

theorem moveContent_sustained (h : d.Grove L) (ht : target < d.size)
    (hs : source < d.size) (hn : ¬ Reaches d.refs source target) :
    d.Sustained (moveContent target source d) L ∧ ∀ {y : NodeId},
      Reaches (moveContent target source d).refs y target → Reaches d.refs y target := by
  have hthin : d.Thinned (d.setBranch source 0 []) := .setBranch_zero (nil_sublist _)
  have hg : (d.setBranch source 0 []).Grove ((d.branch source 0).nodes ++ L) :=
    Grove.modify (A := []) h hs ((d.node source).refs_setBranch 0 [])
      fun _ ha => absurd ha not_mem_nil
  have hmono : ∀ {y z : NodeId}, Reaches (d.setBranch source 0 []).refs y z → Reaches d.refs y z :=
    fun hr => hr.mono fun y => (hthin.refs_sublist y).subset
  obtain ⟨hsust, hr⟩ := hg.sustained_append (hthin.size_eq ▸ ht) fun c hc hcr =>
    hn (.head (refs_of_mem hc) (hmono hcr))
  exact ⟨⟨hsust.grove, hthin.size_eq ▸ hsust.size_le⟩, fun hy => hmono (hr.mp hy)⟩

theorem foldl_moveContent_sustained {first : NodeId} {others : List NodeId} (h : d.Grove L)
    (hf : first < d.size) (ho : ∀ o ∈ others, o < d.size ∧ ¬ Reaches d.refs o first) :
    d.Sustained (others.foldl (fun d other => moveContent first other d) d) L := by
  induction others generalizing d with
  | nil => exact .refl h
  | cons o others ih =>
    obtain ⟨⟨hlt, hn⟩, ho⟩ := forall_mem_cons.mp ho
    obtain ⟨hs, hr⟩ := moveContent_sustained h hf hlt hn
    refine hs.trans (ih hs.grove (lt_of_lt_of_le hf hs.size_le) fun o ho' => ?_)
    exact ⟨lt_of_lt_of_le (ho o ho').1 hs.size_le, fun hor => (ho o ho').2 (hr hor)⟩

theorem mergeInternal_sustained (h : d.Grove (root :: L)) (kind : Kind) :
    d.Sustained (mergeInternal kind d) (root :: L) := by
  rw [mergeInternal]
  have hpair := ((h.pairwise_below (fun n => !d.hasKind n [.conditional, .rawOutput]) d.size
    root).filter (d.hasKind · [kind])).filter (!isExternal d ·)
  have hlt : ∀ x ∈ (d.descendants root [kind] [.conditional, .rawOutput]).filter
      (!isExternal d ·), x < d.size := fun x hx =>
    h.lt_of_descendant (mem_filter.mp hx).1
  rw [← walk, ← descendants] at hpair
  generalize (d.descendants root [kind] [.conditional, .rawOutput]).filter
    (!isExternal d ·) = found at hpair hlt
  cases found with
  | nil => exact .refl h
  | cons first others =>
    obtain ⟨hfirst, hothers⟩ := forall_mem_cons.mp hlt
    have hmove := foldl_moveContent_sustained h hfirst fun o ho =>
      ⟨hothers o ho, (pairwise_cons.mp hpair).1 o ho⟩
    exact hmove.trans (hmove.grove.sust_removeNodes
      hmove.grove.lt_head _)

theorem dropEmptyClasses_sublist (d : Document) (tag : Branch) :
    (dropEmptyClasses d tag).Sublist tag := by
  rw [dropEmptyClasses]
  suffices key : ∀ kept done : Branch, kept.Sublist done → (tag.foldl (fun kept f =>
      if f.node?.any (isEmptyClass d) then
        if endsIn d kept .tagSpace then kept.dropLast else kept
      else kept ++ [f]) kept).Sublist (done ++ tag) from key [] [] (.refl _)
  induction tag with
  | nil => exact fun kept done hk => by rwa [append_nil]
  | cons f tag ih =>
    intro kept done hk
    rw [foldl_cons, append_cons done]
    refine ih _ _ ?_
    split_ifs
    · exact (dropLast_sublist _).trans (hk.trans (sublist_append_left _ _))
    · exact hk.trans (sublist_append_left _ _)
    · exact hk.append (.refl _)

theorem dropEndSpace_sublist (d : Document) (b : Branch) : (dropEndSpace d b).Sublist b := by
  rw [dropEndSpace]
  exact reverse_sublist.mp (by rw [reverse_reverse]; exact dropWhile_sublist _)

theorem trimTag_sublist (d : Document) (tag : Branch) : (trimTag d tag).Sublist tag := by
  rw [trimTag]
  split_ifs
  · refine ((dropEndSpace_sublist d _).append (.refl _)).trans ?_
    cases hlast : tag.getLast? with
    | none => rw [List.getLast?_eq_none_iff.mp hlast]; exact .refl _
    | some f =>
      obtain ⟨l, rfl⟩ := List.getLast?_eq_some_iff.mp hlast
      simp
  · exact dropEndSpace_sublist d tag

theorem removeEmptyClasses_thinned (d : Document) : d.Thinned (removeEmptyClasses d) :=
  .foldl fun d _ _ => .setBranch_zero
    (((trimTag_sublist d _).trans (dropEmptyClasses_sublist d _)).filterMap _)

theorem commentsToText_thinned (d : Document) : d.Thinned (commentsToText d) :=
  .foldl fun _ _ _ => .foldl fun d x _ => (Thinned.setKind d x _).trans (.setChildren _ x rfl)

theorem compressBlanks_thinned (d : Document) : d.Thinned (compressBlanks d) :=
  .foldl fun d x _ => .setChildren d x rfl

theorem pointAt_thinned (tag : Branch) (name : String) (b : Bundle) (d : Document) :
    d.Thinned (pointAt tag name b d) := by
  rw [pointAt]
  split
  · rw [setAttributeValue]
    split
    · exact .setChildren d _ rfl
    · exact .refl d
  · exact .refl d

theorem bundleScripts_sustained (hlt : id < j.document.size)
    (h : j.document.Grove L) (hok : bundleScripts id j = .ok () j') :
    j.document.Sustained j'.document L := by
  rw [bundleScripts, Work.options_bind, Work.document_bind] at hok
  cases hfiles : scriptFiles j.session.options j.document id with
  | nil =>
    rw [hfiles] at hok
    obtain ⟨-, rfl⟩ := pure_eq_ok.mp hok
    exact .refl h
  | cons first others =>
    rw [hfiles] at hok
    obtain ⟨bundle, j1, htask, hok⟩ := bind_eq_ok.mp hok
    obtain ⟨s, -, rfl⟩ := Work.task_eq_ok.mp htask
    obtain ⟨_, j2, happly, hok⟩ := bind_eq_ok.mp hok
    obtain rfl := Work.apply_eq_ok.mp happly
    obtain ⟨s', -, rfl⟩ := Work.task_eq_ok.mp hok
    have hpoint := (pointAt_thinned (openingTag j.document first.tag) "src" bundle
      j.document).sustained h
    exact hpoint.trans (hpoint.grove.sust_removeNodes
      (lt_of_lt_of_le hlt hpoint.size_le) _)

theorem bundleRun_sustains (run : List StylesheetLink) : Work.Sustains L (bundleRun run) := by
  rw [bundleRun]
  split
  · exact Work.Sustains.pure []
  · refine (Work.Sustains.task _).bind fun bundle => ?_
    refine (Work.Sustains.apply fun h => (pointAt_thinned _ _ _ _).sustained h).bind fun _ => ?_
    exact (Work.Sustains.task _).bind fun _ => .pure _

theorem bundleStylesheets_sustained (hlt : id < j.document.size)
    (h : j.document.Grove L) (hok : bundleStylesheets id j = .ok () j') :
    j.document.Sustained j'.document L := by
  rw [bundleStylesheets, Work.options_bind, Work.document_bind] at hok
  obtain ⟨removed, j1, hruns, hok⟩ := bind_eq_ok.mp hok
  obtain rfl := Work.apply_eq_ok.mp hok
  have h1 := (Work.Sustains.mapM fun run _ => bundleRun_sustains run).sustained h hruns
  exact h1.trans (h1.grove.sust_removeNodes (lt_of_lt_of_le hlt h1.size_le) _)

theorem forM_sustains {kinds closed : List Kind} {f : NodeId → Work Unit}
    (hf : ∀ {x : NodeId} {j j' : Job}, x < j.document.size → j.document.Grove L →
      f x j = .ok () j' → j.document.Sustained j'.document L) :
    Work.Sustains L (do ((← Work.document).descendants root kinds closed).forM f) where
  sustained h hok := by
    rw [Work.document_bind] at hok
    exact Work.forM_sustained hf (fun x hx => h.lt_of_descendant hx) h hok

theorem lex_sustains : Work.Sustains (root :: L) (Work.edit lex) :=
  .edit fun h hok => (Grammar.tokenize_tended h .refl hok).1.sustained

theorem nest_sustains : Work.Sustains (root :: L) (Work.edit nest) :=
  .edit fun h hok => (Nesting.nest_tended h hok).sustained

theorem compileScripts_sustains : Work.Sustains L compileScripts := by
  refine forM_sustains fun {x j j'} hlt h hok => ?_
  rw [Work.document_bind, Work.onlyIf] at hok
  split_ifs at hok
  · exact Region.compile_sustained Script.language_sustains hlt h hok
  · obtain ⟨-, rfl⟩ := pure_eq_ok.mp hok
    exact .refl h

theorem compileStyles_sustains : Work.Sustains L compileStyles :=
  forM_sustains fun hlt h hok =>
    Region.compile_sustained (Stylesheet.language_sustains none) hlt h hok

theorem packScripts_sustains : Work.Sustains L packScripts :=
  forM_sustains bundleScripts_sustained

theorem packStylesheets_sustains : Work.Sustains L packStylesheets :=
  forM_sustains bundleStylesheets_sustained

end Markup

end Stencil
