import Stencil.Proofs.Doc.Mirror
import Stencil.Proofs.Doc.Outlines
import Stencil.Proofs.Lexing.Matching
import Stencil.Proofs.Markup.Keeping

/-!
# Merging the text of elements

The texts of several elements are merged one right behind the other, with nothing in between
(`mergeInternal_joins`). So a name at the end of a script goes on in the next one, and a comment that is
ended by the end of a script takes in the first line of the next one.
-/

namespace Stencil

open Document List

variable {d : Document} {first target source x : NodeId} {others : List NodeId} {kind : Kind}
  {s : NodeId → List Char} {t u : List Char}

theorem smooth_textBranch (u : List Char) : Branch.Smooth (textBranch u) := Branch.Smooth.nil.stack _

theorem Branch.Smooth.eq_textBranch {b : Branch} (h : b.Smooth) (hi : b.items = u.map .char) :
    b = textBranch u := by
  have hnone : ∀ y, y ∉ b.nodes := fun y hy => by
    rw [← mem_items, hi] at hy
    simp at hy
  rcases b with _ | ⟨v | y, _ | ⟨w | z, b⟩⟩
  · rw [map_eq_nil_iff.mp hi.symm]
    rfl
  · have hv : v ≠ "" := fun hv => h.1 (hv ▸ mem_cons_self)
    rw [items_cons_text, items_nil, append_nil] at hi
    rw [← map_injective_iff.mpr (fun _ _ => Item.char.inj) hi]
    simp [textBranch, Branch.stack, hv]
  · simpa [Fragment.node?] using h.2
  · exact absurd (by simp [Branch.nodes, Fragment.node?]) (hnone z)
  · exact absurd (by simp [Branch.nodes, Fragment.node?]) (hnone y)
  · exact absurd (by simp [Branch.nodes, Fragment.node?]) (hnone y)
  · exact absurd (by simp [Branch.nodes, Fragment.node?]) (hnone y)

theorem items_textBranch (u : List Char) : Branch.items (textBranch u) = u.map .char := by
  by_cases hu : u = [] <;> simp [Branch.stack, hu]

theorem Document.Spreads.eq_chars {fate : NodeId → Fate} {l : List Item}
    (h : d.Spreads fate (u.map .char) l) : l = u.map .char := by
  induction u generalizing l with
  | nil => cases h; rfl
  | cons c u ih =>
    cases h with
    | char h => rw [ih h, map_cons]

theorem push_textBranch (t : List Char) (hu : u ≠ []) :
    (textBranch t).push (.text (String.ofList u)) = textBranch (t ++ u) := by
  by_cases ht : t = [] <;> simp [textBranch, Branch.push, Branch.stack, ht, hu]

namespace Markup

theorem node_moveContent (hne : source ≠ target) (ht : target < d.size) (hs : source < d.size)
    (htarget : d.branches target = [textBranch t]) (hsource : d.branches source = [textBranch u]) :
    (moveContent target source d).node x =
      if x = target then { d.node target with branches := [textBranch (t ++ u)] }
      else if x = source then { d.node source with branches := [[]] }
      else d.node x := by
  rw [branches] at htarget hsource
  have hcleared : (d.setBranch source 0 []).node source = { d.node source with branches := [[]] } := by
    rw [setBranch, modify_self hs, Node.setBranch_zero, hsource]
    rfl
  have hkept : ∀ y ≠ source, (d.setBranch source 0 []).node y = d.node y := fun y hy =>
    modify_ne hy
  rw [moveContent, branch, Node.branch, hsource]
  by_cases hu : u = []
  · have hnil : [textBranch u].getD 0 [] = [] := by simp [Branch.stack, hu]
    rw [hnil, foldl_nil, hu, append_nil]
    split_ifs with hxt hxs
    · rw [hxt, hkept target hne.symm, ← htarget]
    · rw [hxs, hcleared]
    · exact hkept x hxs
  · have hfold : ([textBranch u].getD 0 []).foldl (fun d f => d.append target 0 f) (d.setBranch source 0 []) =
        (d.setBranch source 0 []).append target 0 (.text (String.ofList u)) := by
      simp [textBranch, Branch.stack, hu]
    rw [hfold, append]
    split_ifs with hxt hxs
    · rw [hxt, modify_self (by rwa [setBranch, size_modify]), hkept target hne.symm,
        Node.setBranch_zero, Node.branch, htarget, getD_cons_zero, push_textBranch t hu]
      rfl
    · rw [modify_ne hxt, hxs, hcleared]
    · rw [modify_ne hxt, hkept x hxs]

theorem size_moveContent (target source : NodeId) (d : Document) :
    (moveContent target source d).size = d.size := by
  rw [moveContent]
  refine foldlRecOn _ (motive := fun e : Document => e.size = d.size) _ (size_modify _ _ _) fun e he f _ => ?_
  exact (size_modify _ _ _).trans he

theorem node_foldl_moveContent (hnodup : (first :: others).Nodup)
    (hlt : ∀ x ∈ first :: others, x < d.size) (hfirst : d.branches first = [textBranch t])
    (hothers : ∀ x ∈ others, d.branches x = [textBranch (s x)]) :
    (others.foldl (fun d other => moveContent first other d) d).node x =
      if x = first then { d.node first with branches := [textBranch (t ++ others.flatMap s)] }
      else if x ∈ others then { d.node x with branches := [[]] }
      else d.node x := by
  induction others generalizing d t with
  | nil =>
    split_ifs with hx
    · rw [hx, flatMap_nil, append_nil, ← hfirst]
      rfl
    · next hx' => cases hx'
    · rfl
  | cons o others ih =>
    obtain ⟨ho, hothers⟩ := forall_mem_cons.mp hothers
    obtain ⟨hfo, hnodup'⟩ := nodup_cons.mp hnodup
    obtain ⟨hoo, hnodup'⟩ := nodup_cons.mp hnodup'
    have hne : o ≠ first := fun h => hfo (h ▸ mem_cons_self)
    have hnode : ∀ {y}, (moveContent first o d).node y = _ := fun {y} =>
      node_moveContent (x := y) hne (hlt first mem_cons_self) (hlt o (by simp)) hfirst ho
    rw [foldl_cons, ih (t := t ++ s o) (nodup_cons.mpr ⟨fun h => hfo (mem_cons_of_mem _ h), hnodup'⟩)]
    · simp only [hnode, flatMap_cons, append_assoc, mem_cons]
      split_ifs <;> simp_all
    · intro y hy
      rw [size_moveContent]
      exact hlt y (cons_subset_cons _ (subset_cons_self _ _) hy)
    · rw [branches, hnode, if_pos rfl]
    · intro y hy
      rw [branches, hnode, if_neg, if_neg]
      · exact hothers y hy
      · rintro rfl
        exact hoo hy
      · rintro rfl
        exact hfo (mem_cons_of_mem _ hy)

abbrev internals (kind : Kind) (d : Document) : List NodeId :=
  (d.descendants root [kind] [.conditional, .rawOutput]).filter (!isExternal d ·)

/-- **Texts are merged without anything in between.** If the elements that are merged hold text, the
first of them holds all of it afterwards, one text right behind the other. The other elements are gone, and
nothing else has changed but for the branches they were in. -/
theorem mergeInternal_joins (hu : d.UniqueOwner root) (hfound : internals kind d = first :: others)
    (htext : ∀ x ∈ first :: others, d.branches x = [textBranch (s x)]) :
    (mergeInternal kind d).branches first = [textBranch ((first :: others).flatMap s)] ∧
      (∀ x, (mergeInternal kind d).Encloses root x ↔ d.Encloses root x ∧ x ∉ others) ∧
      ∀ x, (mergeInternal kind d).node x =
        { d.node x with branches := (mergeInternal kind d).branches x } := by
  have hbelow : ∀ x ∈ first :: others, d.Encloses root x := fun x hx =>
    encloses_of_descendant (mem_filter.mp (hfound ▸ hx)).1
  have hnodup : (first :: others).Nodup := hfound ▸ ((hu.nodup_below .refl _ _).filter _).filter _
  obtain ⟨hfirst, hothers⟩ := forall_mem_cons.mp htext
  have hmerge : mergeInternal kind d =
      (others.foldl (fun d other => moveContent first other d) d).removeNodes root others := by
    rw [mergeInternal]
    simp only [hfound]
  have hnode : ∀ x, (others.foldl (fun d other => moveContent first other d) d).node x = _ := fun x =>
    node_foldl_moveContent hnodup (fun y hy => hu.lt_size (reaches_of_enc (hbelow y hy))) hfirst hothers
  have hsize : (others.foldl (fun d other => moveContent first other d) d).size = d.size :=
    foldlRecOn others _ (motive := fun e : Document => e.size = d.size) rfl fun e he o _ =>
      (size_moveContent first o e).trans he
  rw [hmerge]
  generalize others.foldl (fun d other => moveContent first other d) d = m at hnode hsize
  have hbare : ∀ x, (m.node x).bare = (d.node x).bare := fun x => by
    rw [hnode]
    split_ifs with hx <;> [rw [hx]; skip; skip] <;> rfl
  have hkids : m.kids = d.kids := funext fun x => by
    rw [kids, kids, branches, hnode]
    split_ifs with hx hmem
    · simp [hx, hfirst]
    · simp [hothers x hmem]
    · rfl
  have hu' : m.UniqueOwner root := hu.of_sublist hsize fun x => by
    have hpayload := congrArg Node.payload (hbare x)
    change (m.node x).payload = (d.node x).payload at hpayload
    have hnodes : (m.node x).branches.flatMap Branch.nodes = (d.node x).branches.flatMap Branch.nodes :=
      congrFun hkids x
    rw [refs, refs, Node.references, Node.references, hnodes, Node.body, Node.body, Node.body?,
      Node.body?, hpayload]
  have hrebuilt := hu'.rebuilt_removeNodes others
  refine ⟨?_, fun x => ?_, fun x => ?_⟩
  · have hrecast := hrebuilt.recast first (hkids ▸ (hbelow first mem_cons_self).to_reflTransGen)
      (.inr (by split_ifs <;> simp))
    have hbranches : m.branches first = [textBranch ((first :: others).flatMap s)] := by
      rw [branches, hnode, if_pos rfl]
      rfl
    have hsmooth := (removeNodes_keeps m root others).2 first (by
      rw [SmoothAt, hbranches]
      exact forall_mem_singleton.mpr (smooth_textBranch _))
    rw [SmoothAt] at hsmooth
    have hspread := hrecast.spread
    rw [hbranches] at hspread
    generalize (m.removeNodes root others).branches first = bs at hspread hsmooth
    cases hspread with
    | cons hb hrest =>
      cases hrest
      rw [items_textBranch] at hb
      rw [(hsmooth _ mem_cons_self).eq_textBranch hb.eq_chars]
  · rw [hu'.encloses_removeNodes others]
    simp only [Encloses, hkids]
    refine and_congr_right fun hx => ⟨fun h hmem => h x hmem hx .refl, fun hmem a ha _ hr => ?_⟩
    rcases hr.eq_or_child with rfl | ⟨c, hc, -⟩
    · exact hmem ha
    · rw [kids, hothers a ha] at hc
      simp at hc
  · exact congrArg (fun n : Node => { n with branches := (m.removeNodes root others).branches x })
      (((removeNodes_keeps m root others).1 x).trans (hbare x))

/-- The tokens of a script in order, but for the blanks, if it is accepted. -/
def stream (source : String) : Option (List (Kind × String)) :=
  match Script.grammar.tokenize [] [] root (ofSource "" source) with
  | .ok _ d => some (((d.walk root fun _ => true).filter (Script.isSignificant d)).map fun x =>
      (d.kind x, d.ownText x))
  | .error _ _ => none

/-- Two scripts. The first one ends in a comment. -/
def twoScripts : Document :=
  ⟨#[{ kind := .root, place := .startOf "t", branches := [[.node 1, .node 2]] },
    { kind := .script, place := .startOf "t", branches := [[.text "var a;//x"]] },
    { kind := .script, place := .startOf "t", branches := [[.text "b();"]] }]⟩

/-- No token of the second script is left. -/
theorem mergeInternal_joins_twoScripts :
    twoScripts.UniqueOwner root ∧ internals .script twoScripts = [1, 2] ∧
      (mergeInternal .script twoScripts).branches 1 = [textBranch "var a;//xb();".toList] ∧
      stream "b();" = some [(.identifier, "b"), (.parentheses, ""), (.operator, ";")] ∧
      stream "var a;//xb();" = stream "var a;//x" := by
  have hu : twoScripts.UniqueOwner root := .of_slots (by decide) (by decide) (by decide) (by decide)
  have hfound : internals .script twoScripts = [1, 2] := by decide +kernel
  have htext : ∀ x ∈ [1, 2], twoScripts.branches x =
      [textBranch (if x = 1 then "var a;//x".toList else "b();".toList)] := by decide +kernel
  exact ⟨hu, hfound, (mergeInternal_joins hu hfound htext).1, by decide +kernel, by decide +kernel⟩

end Markup

end Stencil
