import Stencil.Proofs.Doc.Bodies

/-!
# When the source is whole

By default a marker is left out if the branch that it starts is missing. What is written is then a
part of what is written with all markers, and the two are the same exactly if below the node no
marker is without its branch (`Document.sourceOf_whole`).
-/

namespace Stencil

open List Node

variable {w w' : NodeId → String}

/-- A text that is left when characters are taken out of another one. -/
def TextPart (a b : String) : Prop := a.toList.Sublist b.toList

namespace TextPart

variable {a a' b b' : String} {α : Type} {l : List α} {f g : α → String}

theorem refl (a : String) : TextPart a a := List.Sublist.refl _

theorem empty (a : String) : TextPart "" a := nil_sublist _

theorem append (h : TextPart a a') (h' : TextPart b b') : TextPart (a ++ b) (a' ++ b') := by
  rw [TextPart, String.toList_append, String.toList_append]
  exact List.Sublist.append h h'

theorem append_eq_iff (h : TextPart a a') (h' : TextPart b b') :
    a ++ b = a' ++ b' ↔ a = a' ∧ b = b' := by
  refine ⟨fun heq => ?_, fun ⟨ha, hb⟩ => by rw [ha, hb]⟩
  have hlen := congrArg (List.length ∘ String.toList) heq
  simp only [Function.comp_apply, String.toList_append, length_append] at hlen
  have ha := List.Sublist.length_le h
  have hb := List.Sublist.length_le h'
  exact ⟨String.toList_injective (List.Sublist.eq_of_length h (by omega)),
    String.toList_injective (List.Sublist.eq_of_length h' (by omega))⟩

theorem trans {c : String} (h : TextPart a b) (h' : TextPart b c) : TextPart a c :=
  List.Sublist.trans h h'

theorem antisymm (h : TextPart a b) (h' : TextPart b a) : a = b :=
  String.toList_injective (List.Sublist.antisymm h h')

theorem join_map (h : ∀ x ∈ l, TextPart (f x) (g x)) :
    TextPart (String.join (l.map f)) (String.join (l.map g)) :=
  Document.join_rel refl append h

theorem join_map_eq_iff (h : ∀ x ∈ l, TextPart (f x) (g x)) :
    String.join (l.map f) = String.join (l.map g) ↔ ∀ x ∈ l, f x = g x := by
  induction l with
  | nil => simp
  | cons x l ih =>
    rw [forall_mem_cons] at h
    rw [map_cons, map_cons, String.join_cons, String.join_cons,
      append_eq_iff h.1 (join_map h.2), ih h.2, forall_mem_cons]

end TextPart

namespace Document

section Parts

variable {b : Branch} {bs : List Branch} {body : Body} {n k : Nat}

def writeFragment (w : NodeId → String) : Fragment → String
  | .text s => s
  | .node id => w id

theorem writeBranch_eq_join (w : NodeId → String) (b : Branch) :
    writeBranch w b = String.join (b.map (writeFragment w)) := by
  rw [writeBranch]
  congr 2

theorem writeBranch_part (h : ∀ c ∈ b.nodes, TextPart (w c) (w' c)) :
    (∀ f ∈ b, TextPart (writeFragment w f) (writeFragment w' f)) ∧
      TextPart (writeBranch w b) (writeBranch w' b) := by
  have hf : ∀ f ∈ b, TextPart (writeFragment w f) (writeFragment w' f) := fun f hf => by
    cases f with
    | text s => exact .refl s
    | node id => exact h id (Branch.mem_nodes.mpr hf)
  rw [writeBranch_eq_join, writeBranch_eq_join]
  exact ⟨hf, .join_map hf⟩

theorem writeBranch_eq_iff (h : ∀ c ∈ b.nodes, TextPart (w c) (w' c)) :
    writeBranch w b = writeBranch w' b ↔ ∀ c ∈ b.nodes, w c = w' c := by
  refine ⟨fun heq c hc => ?_, branch_congr⟩
  rw [writeBranch_eq_join, writeBranch_eq_join, TextPart.join_map_eq_iff (writeBranch_part h).1] at heq
  exact heq _ (Branch.mem_nodes.mp hc)

theorem writeMarkers_part (h : ∀ m ∈ body.markers, TextPart (w m.2) (w' m.2)) (i : Nat) :
    TextPart (writeMarkers w body i) (writeMarkers w' body i) :=
  .join_map fun m hm => h m (mem_of_mem_filter hm)

theorem bodyText_mono (h : n ≤ k) : TextPart (bodyText w bs body n) (bodyText w bs body k) := by
  induction k, h using Nat.le_induction with
  | base => exact .refl _
  | succ k _ ih =>
    rw [bodyText_succ]
    have := ih.append (.empty (writeMarkers w body k ++ writeBranch w (bs.getD k [])))
    rwa [String.append_empty] at this

variable (hbody : ∀ c ∈ body.references, TextPart (w c) (w' c))
  (hbs : ∀ b ∈ bs, ∀ c ∈ b.nodes, TextPart (w c) (w' c))
include hbody hbs

theorem marker_branch_part (i : Nat) : TextPart (writeMarkers w body i) (writeMarkers w' body i) ∧
    TextPart (writeBranch w (bs.getD i [])) (writeBranch w' (bs.getD i [])) := by
  refine ⟨writeMarkers_part (fun m hm => hbody m.2 ?_) i, (writeBranch_part fun c hc => ?_).2⟩
  · exact Body.mem_references.mpr (.inr (.inl (mem_map_of_mem hm)))
  · by_cases hi : i < bs.length
    · rw [getD_eq_getElem _ _ hi] at hc
      exact hbs _ (getElem_mem hi) c hc
    · rw [getD_eq_default _ _ (not_lt.mp hi)] at hc
      cases hc

theorem bodyText_part (n : Nat) : TextPart (bodyText w bs body n) (bodyText w' bs body n) :=
  .join_map fun i _ =>
    have h := marker_branch_part hbody hbs i
    h.1.append h.2

omit hbs in
theorem closing_part :
    TextPart ((body.closing.map w).getD "") ((body.closing.map w').getD "") := by
  cases h : body.closing with
  | none => exact .refl _
  | some c => exact hbody c (Body.mem_references.mpr (.inr (.inr h)))

theorem bodyText_whole_part :
    TextPart (bodyText w bs body bs.length) (bodyText w' bs body (max bs.length body.span)) :=
  (bodyText_part hbody hbs _).trans (bodyText_mono (Nat.le_max_left _ _))

theorem writeBody_part : TextPart (writeBody w bs body) (wholeBody w' bs body) := by
  rw [writeBody_eq_bodyText, wholeBody]
  exact (bodyText_whole_part hbody hbs).append (closing_part hbody)

omit hbody hbs in
theorem lt_length_of_bodyText_eq
    (heq : bodyText w' bs body bs.length = bodyText w' bs body (max bs.length body.span))
    {m : Nat × NodeId} (hm : m ∈ body.markers) (hne : w' m.2 ≠ "") : m.1 < bs.length := by
  by_contra hge
  have hlt := Body.lt_span hm
  -- nothing is added by the branch that the marker starts
  have hsucc : bodyText w' bs body (m.1 + 1) = bodyText w' bs body m.1 := by
    have hall : TextPart (bodyText w' bs body (m.1 + 1)) (bodyText w' bs body bs.length) := by
      rw [heq]
      exact bodyText_mono (le_trans hlt (Nat.le_max_right _ _))
    exact (hall.trans (bodyText_mono (not_lt.mp hge))).antisymm (bodyText_mono (Nat.le_succ _))
  rw [bodyText_succ] at hsucc
  have hnil : writeMarkers w' body m.1 ++ writeBranch w' (bs.getD m.1 []) = "" := by
    have h := (TextPart.refl (bodyText w' bs body m.1)).append_eq_iff
      (.empty (writeMarkers w' body m.1 ++ writeBranch w' (bs.getD m.1 [])))
    exact (h.mp (by rw [hsucc, String.append_empty])).2.symm
  have hmarkers : writeMarkers w' body m.1 = "" := (String.append_eq_empty_iff.mp hnil).1
  have hchars := congrArg String.toList hmarkers
  rw [writeMarkers, String.toList_join, String.toList_empty, flatMap_eq_nil_iff] at hchars
  refine hne (String.toList_eq_nil_iff.mp (hchars _ ?_))
  exact mem_map.mpr ⟨m, mem_filter.mpr ⟨hm, beq_self_eq_true _⟩, rfl⟩

theorem writeBody_eq_wholeBody_iff (hne : ∀ m ∈ body.markers, w' m.2 ≠ "") :
    writeBody w bs body = wholeBody w' bs body ↔ (∀ m ∈ body.markers, m.1 < bs.length) ∧
      (∀ m ∈ body.markers, w m.2 = w' m.2) ∧ (∀ c, body.closing = some c → w c = w' c) ∧
        ∀ b ∈ bs, ∀ c ∈ b.nodes, w c = w' c := by
  constructor
  · intro heq
    rw [writeBody_eq_bodyText, wholeBody,
      (bodyText_whole_part hbody hbs).append_eq_iff (closing_part hbody)] at heq
    obtain ⟨htext, hclosing⟩ := heq
    have hpart := bodyText_part hbody hbs bs.length
    have hwhole : bodyText w' bs body bs.length = bodyText w' bs body (max bs.length body.span) :=
      (bodyText_mono (Nat.le_max_left _ _)).antisymm (htext ▸ hpart)
    have hlt : ∀ m ∈ body.markers, m.1 < bs.length := fun m hm =>
      lt_length_of_bodyText_eq hwhole hm (hne m hm)
    rw [← hwhole, bodyText, bodyText, TextPart.join_map_eq_iff fun i _ =>
      (marker_branch_part hbody hbs i).1.append (marker_branch_part hbody hbs i).2] at htext
    have hboth : ∀ i < bs.length, writeMarkers w body i = writeMarkers w' body i ∧
        writeBranch w (bs.getD i []) = writeBranch w' (bs.getD i []) := fun i hi =>
      ((marker_branch_part hbody hbs i).1.append_eq_iff (marker_branch_part hbody hbs i).2).mp
        (htext i (mem_range.mpr hi))
    refine ⟨hlt, fun m hm => ?_, fun c hc => ?_, fun b hb c hc => ?_⟩
    · have hm' := (hboth m.1 (hlt m hm)).1
      rw [writeMarkers, writeMarkers, TextPart.join_map_eq_iff fun m hm => hbody m.2
        (Body.mem_references.mpr (.inr (.inl (mem_map_of_mem (mem_of_mem_filter hm)))))]
        at hm'
      exact hm' m (mem_filter.mpr ⟨hm, beq_self_eq_true _⟩)
    · simpa [hc] using hclosing
    · obtain ⟨i, hi, rfl⟩ := mem_iff_getElem.mp hb
      have hb' := (hboth i hi).2
      rw [getD_eq_getElem _ _ hi, writeBranch_eq_iff (hbs _ hb)] at hb'
      exact hb' c hc
  · rintro ⟨hlt, hmarkers, hclosing, hbranches⟩
    rw [wholeBody_of_complete hlt]
    refine writeBody_eq (map_congr_left fun b hb => branch_congr (hbranches b hb))
      hmarkers hclosing

end Parts

/-- No marker of the node is without the branch that it starts. -/
def Complete (d : Document) (x : NodeId) : Prop :=
  ∀ m ∈ (d.node x).body.markers, m.1 < (d.branches x).length

instance (d : Document) (x : NodeId) : Decidable (d.Complete x) :=
  inferInstanceAs (Decidable (∀ m ∈ (d.node x).body.markers, m.1 < (d.branches x).length))

variable {d : Document} {x : NodeId} {L : List NodeId}

theorem writeDefault_whole_of_none (hp : (d.node x).payload = .none)
    (hpart : ∀ c ∈ d.refs x, TextPart (w c) (w' c)) :
    TextPart (d.writeDefault w x) (d.writeDefault w' x) ∧
      (d.writeDefault w x = d.writeDefault w' x ↔ ∀ c ∈ d.refs x, w c = w' c) := by
  have hbs : ∀ b ∈ d.branches x, ∀ c ∈ b.nodes, TextPart (w c) (w' c) := fun b hb c hc =>
    hpart c (refs_of_branch hb hc)
  have hbranches : ∀ b ∈ d.branches x, TextPart (writeBranch w b) (writeBranch w' b) :=
    fun b hb => (writeBranch_part (hbs b hb)).2
  have hpart' : TextPart (d.writeBranches w x) (d.writeBranches w' x) := .join_map hbranches
  rw [write_of_none hp, write_of_none hp]
  refine ⟨((TextPart.refl _).append hpart').append (.refl _), ?_⟩
  rw [((TextPart.refl _).append hpart').append_eq_iff (.refl _),
    (TextPart.refl _).append_eq_iff hpart', writeBranches, writeBranches,
    TextPart.join_map_eq_iff hbranches]
  constructor
  · rintro ⟨⟨-, h⟩, -⟩ c hc
    have hbody : (d.node x).body = {} := by simp [Node.body, Node.body?, hp]
    obtain ⟨b, hb, hc⟩ : ∃ b ∈ d.branches x, c ∈ b.nodes := by
      simpa [refs, branches, mem_references, hbody] using hc
    exact (writeBranch_eq_iff (hbs b hb)).mp (h b hb) c hc
  · exact fun h => ⟨⟨rfl, fun b hb => branch_congr fun c hc =>
      h c (refs_of_branch hb hc)⟩, rfl⟩

theorem writeDefault_whole_of_body {b : Body} (hp : (d.node x).payload = .body b)
    (hpart : ∀ c ∈ d.refs x, TextPart (w c) (w' c)) (hne : ∀ m ∈ b.markers, w' m.2 ≠ "") :
    TextPart (d.writeDefault w x) ((Manner.whole d w' x).getD (d.writeDefault w' x)) ∧
      (d.writeDefault w x = (Manner.whole d w' x).getD (d.writeDefault w' x) ↔
        d.Complete x ∧ ∀ c ∈ d.refs x, w c = w' c) := by
  have hb : (d.node x).body = b := by simp [Node.body, Node.body?, hp]
  have hbs : ∀ b ∈ d.branches x, ∀ c ∈ b.nodes, TextPart (w c) (w' c) := fun b hb c hc =>
    hpart c (refs_of_branch hb hc)
  have hbody : ∀ c ∈ b.references, TextPart (w c) (w' c) := fun c hc =>
    hpart c (body_refs_sub _ (hb ▸ hc))
  have hopening : ∀ c ∈ b.opening.nodes, TextPart (w c) (w' c) := fun c hc =>
    hbody c (Body.mem_references.mpr (.inl hc))
  have hopen := (writeBranch_part hopening).2
  have hwhole := writeBody_part hbody hbs
  rw [Manner.orderly_whole.of_body hp (.inl trivial), write_of_body hp]
  refine ⟨(((TextPart.refl _).append hopen).append (.refl _)).append hwhole, ?_⟩
  rw [(((TextPart.refl _).append hopen).append (.refl _)).append_eq_iff hwhole,
    ((TextPart.refl _).append hopen).append_eq_iff (.refl _),
    (TextPart.refl _).append_eq_iff hopen, writeBranch_eq_iff hopening,
    writeBody_eq_wholeBody_iff hbody hbs hne]
  constructor
  · rintro ⟨⟨⟨-, hopen⟩, -⟩, hlt, hmarkers, hclosing, hbranches⟩
    refine ⟨by rw [Complete, hb]; exact hlt, fun c hc => ?_⟩
    rcases mem_references.mp hc with hc | hc | ⟨b', hb', hc⟩ | hc
    · exact hopen c (hb ▸ hc)
    · obtain ⟨m, hm, rfl⟩ := mem_map.mp hc
      exact hmarkers m (hb ▸ hm)
    · exact hbranches b' hb' c hc
    · exact hclosing c (hb ▸ hc)
  · rintro ⟨hlt, h⟩
    rw [Complete, hb] at hlt
    have hrefs : ∀ c ∈ b.references, w c = w' c := fun c hc =>
      h c (body_refs_sub _ (hb ▸ hc))
    exact ⟨⟨⟨rfl, fun c hc => hrefs c (Body.mem_references.mpr (.inl hc))⟩, rfl⟩, hlt,
      fun m hm => hrefs m.2 (Body.mem_references.mpr (.inr (.inl (mem_map_of_mem hm)))),
      fun c hc => hrefs c (Body.mem_references.mpr (.inr (.inr hc))),
      fun b hb c hc => h c (refs_of_branch hb hc)⟩

theorem writeDefault_whole (hp : (d.node x).naming? = none)
    (hpart : ∀ c ∈ d.refs x, TextPart (w c) (w' c))
    (hne : ∀ m ∈ (d.node x).body.markers, w' m.2 ≠ "") :
    TextPart (d.writeDefault w x) ((Manner.whole d w' x).getD (d.writeDefault w' x)) ∧
      (d.writeDefault w x = (Manner.whole d w' x).getD (d.writeDefault w' x) ↔
        d.Complete x ∧ ∀ c ∈ d.refs x, w c = w' c) := by
  cases hpay : (d.node x).payload with
  | none =>
    have hcomplete : d.Complete x := by simp [Complete, Node.body, Node.body?, hpay]
    obtain ⟨hpart', hiff⟩ := writeDefault_whole_of_none hpay hpart
    rw [Manner.orderly_whole.of_none hpay, Option.getD_none]
    exact ⟨hpart', hiff.trans (by simp [hcomplete])⟩
  | body b =>
    have hb : (d.node x).body = b := by simp [Node.body, Node.body?, hpay]
    exact writeDefault_whole_of_body hpay hpart (hb ▸ hne)
  | naming m => exact absurd hp (by simp [Node.naming?, hpay])

theorem Grove.part_of_step {P : NodeId → Prop} (h : d.Grove L)
    (hstep : ∀ x < d.size, (∀ c ∈ d.refs x, TextPart (w c) (w' c)) →
      TextPart (w x) (w' x) ∧ (w x = w' x ↔ P x ∧ ∀ c ∈ d.refs x, w c = w' c)) (hx : x < d.size) :
    TextPart (w x) (w' x) ∧ (w x = w' x ↔ ∀ y, Reaches d.refs x y → P y) := by
  have key : ∀ n x, Shallow d.refs n x → x < d.size →
      TextPart (w x) (w' x) ∧ (w x = w' x ↔ ∀ y, Reaches d.refs x y → P y) := by
    intro n
    induction n with
    | zero => exact fun _ hs => hs.elim
    | succ n ih =>
      intro x hs hx
      have hchild : ∀ c ∈ d.refs x, TextPart (w c) (w' c) ∧
          (w c = w' c ↔ ∀ y, Reaches d.refs c y → P y) := fun c hc =>
        ih c (hs c hc) (h.lt_of_refs hc)
      obtain ⟨hpart, hiff⟩ := hstep x hx fun c hc => (hchild c hc).1
      refine ⟨hpart, hiff.trans ⟨?_, fun hall => ⟨hall x .refl, fun c hc => ?_⟩⟩⟩
      -- below the node is the node itself and what is below its children
      · rintro ⟨hself, hrefs⟩ y hy
        rcases hy.eq_or_child with rfl | ⟨c, hc, hy⟩
        · exact hself
        · exact (hchild c hc).2.mp (hrefs c hc) y hy
      · exact (hchild c hc).2.mpr fun y hy => hall y ((Reaches.child hc).trans hy)
  exact key d.size x (h.shallow hx) hx

theorem sourceOf_whole (h : d.Grove L) (hp : d.Plain) (hx : x < d.size)
    (hne : ∀ y, ∀ m ∈ (d.node y).body.markers, d.render Manner.whole m.2 ≠ "") :
    TextPart (d.sourceOf x) (d.render Manner.whole x) ∧
      (d.sourceOf x = d.render Manner.whole x ↔ ∀ y, Reaches d.refs x y → d.Complete y) := by
  refine h.part_of_step (fun x hx hpart => ?_) hx
  rw [h.sourceOf_eq hp hx, h.render_eq Manner.local_whole hp hx]
  exact writeDefault_whole (hp x) hpart (hne x)

end Document

end Stencil
