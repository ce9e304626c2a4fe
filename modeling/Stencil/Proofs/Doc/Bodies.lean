import Stencil.Proofs.Doc.Retelling

/-!
# Writing bodies as a whole

By default a marker of a body is written only if the branch that it starts is there. The manner
`Manner.whole` writes all markers: it goes on to the last branch that a marker starts. A manner is
orderly (`Manner.Orderly`) if it writes a body in the order of its branches and leaves out no marker;
the default is orderly for bodies without markers.
-/

namespace Stencil

open List

variable {id : NodeId} {b b' : Body} {c : Branch} {bs bs' : List Branch} {i k n : Nat}

/-- One more than the largest index of a branch that a marker starts. -/
def Body.span (b : Body) : Nat := (b.markers.map (·.1 + 1)).foldr max 0

theorem Body.lt_span {m : Nat × NodeId} (h : m ∈ b.markers) : m.1 < b.span := by
  rw [Body.span]
  generalize b.markers = ms at h
  induction ms with
  | nil => cases h
  | cons m' ms ih =>
    rw [map_cons, foldr_cons]
    rcases mem_cons.mp h with rfl | h
    · exact lt_of_lt_of_le (Nat.lt_succ_self _) (Nat.le_max_left _ _)
    · exact lt_of_lt_of_le (ih h) (Nat.le_max_right _ _)

theorem Body.span_le (h : ∀ m ∈ b.markers, m.1 < n) : b.span ≤ n := by
  rw [Body.span]
  generalize b.markers = ms at h
  induction ms with
  | nil => exact Nat.zero_le n
  | cons m ms ih =>
    rw [forall_mem_cons] at h
    exact Nat.max_le.mpr ⟨h.1, ih h.2⟩

def Body.mark (b : Body) (i : Nat) (id : NodeId) : Body :=
  { b with markers := b.markers ++ [(i, id)] }

theorem Body.span_mark (b : Body) (i : Nat) (id : NodeId) :
    (b.mark i id).span = max b.span (i + 1) := by
  rw [Body.span, Body.span, Body.mark]
  generalize b.markers = ms
  induction ms with
  | nil => simp
  | cons m ms ih =>
    simp only [cons_append, map_cons, foldr_cons] at ih ⊢
    rw [ih, Nat.max_assoc]

/-- The last branch of a body, which has index `k` and was empty, has got content. -/
structure Document.Filling (bs bs' : List Branch) (k : Nat) (c : Branch) : Prop where
  length_le : bs.length ≤ k + 1
  empty : bs.getD k [] = []
  others : ∀ i, i ≠ k → bs'.getD i [] = bs.getD i []
  filled : bs'.getD k [] = c
  length_le' : bs'.length ≤ k + 1

namespace Body

def markersAt (b : Body) (i : Nat) : Branch := (b.markers.filter (·.1 == i)).map fun m => .node m.2

/-- The first `n` branches of a body, each behind its markers. -/
def flatTo (b : Body) (bs : List Branch) (n : Nat) : Branch :=
  (List.range n).flatMap fun i => b.markersAt i ++ bs.getD i []

/-- All branches of a body, each behind its markers, and the closing marker. -/
def flat (b : Body) (bs : List Branch) : Branch :=
  b.flatTo bs (max bs.length b.span) ++ b.closing.toList.map .node

theorem flatTo_succ : b.flatTo bs (n + 1) = b.flatTo bs n ++ (b.markersAt n ++ bs.getD n []) := by
  simp [flatTo, range_succ]

theorem flatTo_congr (h : ∀ i < n, b.markersAt i ++ bs.getD i [] = b'.markersAt i ++ bs'.getD i []) :
    b.flatTo bs n = b'.flatTo bs' n :=
  flatMap_congr fun i hi => h i (mem_range.mp hi)

theorem markersAt_of_span_le (h : b.span ≤ i) : b.markersAt i = [] := by
  refine map_eq_nil_iff.mpr (filter_eq_nil_iff.mpr fun m hm heq => ?_)
  have hlt := lt_span hm
  rw [beq_iff_eq] at heq
  omega

theorem flatTo_of_le (hlen : bs.length ≤ n) (hspan : b.span ≤ n) (h : n ≤ k) :
    b.flatTo bs k = b.flatTo bs n := by
  induction k, h using Nat.le_induction with
  | base => rfl
  | succ k hk ih =>
    rw [flatTo_succ, ih, markersAt_of_span_le (by omega), getD_eq_default _ _ (by omega)]
    simp

theorem flat_eq (hlen : bs.length ≤ n) (hspan : b.span ≤ n) :
    b.flat bs = b.flatTo bs n ++ b.closing.toList.map .node := by
  rw [flat, flatTo_of_le (Nat.le_max_left _ _) (Nat.le_max_right _ _)
    (Nat.max_le.mpr ⟨hlen, hspan⟩)]

theorem markersAt_mark_ne (h : i ≠ k) : (b.mark k id).markersAt i = b.markersAt i := by
  simp [markersAt, mark, filter_append, h.symm]

end Body

namespace Document.Filling

theorem flatTo_eq (h : Filling bs bs' k c) : b.flatTo bs' (k + 1) = b.flatTo bs (k + 1) ++ c := by
  have hbelow : b.flatTo bs' k = b.flatTo bs k := Body.flatTo_congr fun i hi => by
    rw [h.others i (ne_of_lt hi)]
  rw [Body.flatTo_succ, Body.flatTo_succ, hbelow, h.filled, h.empty]
  simp

theorem flat_closed (h : Filling bs bs' k c) (hspan : b.span ≤ k + 1) (hclosing : b.closing = none) :
    ({ b with closing := some id } : Body).flat bs' = b.flat bs ++ (c ++ [.node id]) := by
  have hspan' : ({ b with closing := some id } : Body).span ≤ k + 1 := hspan
  have hsame : ({ b with closing := some id } : Body).flatTo bs' (k + 1) = b.flatTo bs' (k + 1) := rfl
  rw [Body.flat_eq h.length_le' hspan', Body.flat_eq h.length_le hspan, hsame, h.flatTo_eq, hclosing]
  simp

theorem flat_marked (h : Filling bs bs' k c) (hspan : b.span ≤ k + 1) (hk : k < i)
    (hclosing : b.closing = none) : (b.mark i id).flat bs' = b.flat bs ++ (c ++ [.node id]) := by
  have hlen' := h.length_le'
  have hspan' : (b.mark i id).span ≤ i + 1 := by rw [Body.span_mark]; omega
  -- the new marker is the only thing in front of the branch that it starts
  have hmarker : (b.mark i id).markersAt i = [.node id] := by
    have hold : b.markersAt i = [] := Body.markersAt_of_span_le (by omega)
    rw [Body.markersAt, map_eq_nil_iff] at hold
    simp [Body.markersAt, Body.mark, filter_append, hold]
  have hbelow : (b.mark i id).flatTo bs' i = b.flatTo bs' (k + 1) := by
    rw [← Body.flatTo_of_le hlen' hspan (show k + 1 ≤ i by omega)]
    exact Body.flatTo_congr fun j hj => by rw [Body.markersAt_mark_ne (ne_of_lt hj)]
  have hnone : (b.mark i id).closing = none := hclosing
  rw [Body.flat_eq (n := i + 1) (by omega) hspan', Body.flat_eq h.length_le hspan, Body.flatTo_succ,
    hbelow, h.flatTo_eq, hmarker, getD_eq_default _ _ (by omega), hnone, hclosing]
  simp

end Document.Filling

namespace Document

variable {w w' : NodeId → String}

/-- The first `n` branches of a body, each behind its markers. -/
def bodyText (w : NodeId → String) (bs : List Branch) (b : Body) (n : Nat) : String :=
  String.join ((List.range n).map fun i => writeMarkers w b i ++ writeBranch w (bs.getD i []))

theorem bodyText_succ : bodyText w bs b (n + 1) =
    bodyText w bs b n ++ (writeMarkers w b n ++ writeBranch w (bs.getD n [])) := by
  simp [bodyText, range_succ, String.join_append]

theorem writeMarkers_eq (w : NodeId → String) (b : Body) (i : Nat) :
    writeMarkers w b i = writeBranch w (b.markersAt i) := by
  rw [writeMarkers, writeBranch, Body.markersAt, map_map]
  rfl

theorem bodyText_eq (w : NodeId → String) (bs : List Branch) (b : Body) (n : Nat) :
    bodyText w bs b n = writeBranch w (b.flatTo bs n) := by
  induction n with
  | zero => rfl
  | succ n ih => simp [bodyText_succ, Body.flatTo_succ, ih, writeMarkers_eq]

theorem writeBody_eq_bodyText (w : NodeId → String) (bs : List Branch) (b : Body) :
    writeBody w bs b = bodyText w bs b bs.length ++ (b.closing.map w).getD "" := by
  rw [writeBody_def, bodyText]
  congr 2
  refine ext_getElem (by simp) fun i hi hi' => ?_
  have hlt : i < bs.length := by simpa using hi'
  simp [hlt]

/-- All branches and markers of a body, and the closing marker. -/
def wholeBody (w : NodeId → String) (bs : List Branch) (b : Body) : String :=
  bodyText w bs b (max bs.length b.span) ++ (b.closing.map w).getD ""

theorem wholeBody_eq (w : NodeId → String) (bs : List Branch) (b : Body) :
    wholeBody w bs b = writeBranch w (b.flat bs) := by
  rw [wholeBody, bodyText_eq, Body.flat]
  cases b.closing <;> simp

theorem wholeBody_of_complete (h : ∀ m ∈ b.markers, m.1 < bs.length) :
    wholeBody w bs b = writeBody w bs b := by
  rw [wholeBody, writeBody_eq_bodyText, Nat.max_eq_left (Body.span_le h)]

theorem whole_of_no_markers (h : b.markers = []) : wholeBody w bs b = writeBody w bs b :=
  wholeBody_of_complete (by simp [h])

theorem wholeBody_congr (hw : ∀ c ∈ b.references, w c = w' c)
    (hbs : bs.map (writeBranch w) = bs'.map (writeBranch w')) :
    wholeBody w bs b = wholeBody w' bs' b := by
  have hclosing : b.closing.map w = b.closing.map w' := by
    cases h : b.closing with
    | none => rfl
    | some c => exact congrArg some (hw c (Body.mem_references.mpr (.inr (.inr h))))
  have hlen : bs.length = bs'.length := by simpa using congrArg List.length hbs
  have hbranch : ∀ i, writeBranch w (bs.getD i []) = writeBranch w' (bs'.getD i []) := fun i => by
    have h := congrArg (List.getD · i "") hbs
    rwa [← writeBranch_nil w, getD_map, writeBranch_nil, ← writeBranch_nil w', getD_map]
      at h
  have hmarkers : writeMarkers w b = writeMarkers w' b := by
    funext i
    refine congrArg String.join (map_congr_left fun m hm => hw m.2 ?_)
    exact Body.mem_references.mpr
      (.inr (.inl (mem_map_of_mem (mem_of_mem_filter hm))))
  rw [wholeBody, wholeBody, hclosing, hlen]
  refine congrArg (· ++ _) (congrArg String.join (map_congr_left fun i _ => ?_))
  rw [hmarkers, hbranch]

theorem wholeBody_closed (h : Filling bs bs' k c) (hspan : b.span ≤ k + 1)
    (hclosing : b.closing = none) : wholeBody w bs' { b with closing := some id } =
      wholeBody w bs b ++ (writeBranch w c ++ w id) := by
  rw [wholeBody_eq, wholeBody_eq, h.flat_closed hspan hclosing]
  simp

theorem wholeBody_marked (h : Filling bs bs' k c) (hspan : b.span ≤ k + 1) (hk : k < i)
    (hclosing : b.closing = none) :
    wholeBody w bs' (b.mark i id) = wholeBody w bs b ++ (writeBranch w c ++ w id) := by
  rw [wholeBody_eq, wholeBody_eq, h.flat_marked hspan hk hclosing]
  simp

end Document

/-- The manner that writes all markers of a body. -/
def Manner.whole : Manner := fun d w id =>
  (d.node id).body?.map fun b =>
    (d.kind id).openingDelimiters.1 ++ Document.writeBranch w b.opening ++
      (d.kind id).openingDelimiters.2 ++ Document.wholeBody w (d.branches id) b

/-- A manner that writes nodes without a body by default, and bodies as a whole. Where `full` does
not hold this is asked for bodies without markers only. -/
structure Manner.Orderly (m : Manner) (full : Prop) : Prop where
  isLocal : m.Local
  textual : m.Textual
  of_none : ∀ {d : Document} {w : NodeId → String} {id : NodeId},
    (d.node id).payload = .none → m d w id = none
  of_body : ∀ {d : Document} {w : NodeId → String} {id : NodeId} {b : Body},
    (d.node id).payload = .body b → full ∨ b.markers = [] →
    (m d w id).getD (d.writeDefault w id) = (d.kind id).openingDelimiters.1 ++
      Document.writeBranch w b.opening ++ (d.kind id).openingDelimiters.2 ++
        Document.wholeBody w (d.branches id) b

theorem Manner.orderly_source : Manner.Orderly Manner.source False where
  isLocal := Manner.local_source
  textual := Manner.textual_source
  of_none _ := rfl
  of_body hb hm := by
    obtain hm := hm.resolve_left id
    rw [Option.getD_none, Document.write_of_body hb, Document.whole_of_no_markers hm]

theorem Manner.textual_whole : Manner.Textual Manner.whole := by
  intro d d' w w' id hk hp hn hbs hw
  have hbody : (d.node id).body? = (d'.node id).body? := by rw [Node.body?, Node.body?, hp]
  rw [whole, whole, hk, hbody]
  cases hb : (d'.node id).body? with
  | none => rfl
  | some b =>
    have hw : ∀ c ∈ b.references, w c = w' c := by
      rwa [Node.body, hb] at hw
    have hopening : Document.writeBranch w b.opening = Document.writeBranch w' b.opening :=
      Document.branch_congr fun c hc => hw c (Body.mem_references.mpr (.inl hc))
    simp only [Option.map_some, Document.wholeBody_congr hw hbs, hopening]

theorem Manner.local_whole : Manner.Local Manner.whole := by
  intro d d' w w' id hnode hw
  cases hn : (d.node id).naming? with
  | some n =>
    -- a node with a name has no body
    have hbody : (d.node id).body? = none := by
      cases hp : (d.node id).payload with
      | none => simp [Node.body?, hp]
      | body b => simp [Node.naming?, hp] at hn
      | naming n => simp [Node.body?, hp]
    rw [whole, whole, hnode, hbody]
    rfl
  | none =>
    rw [Document.uses, Node.uses_eq_refs hn] at hw
    have hkind : d.kind id = d'.kind id := by rw [Document.kind, Document.kind, hnode]
    refine Manner.textual_whole hkind (by rw [hnode]) (by rw [hnode]; exact hn) ?_ fun c hc => ?_
    · rw [Document.branches, Document.branches, hnode]
      refine map_congr_left fun b hb => Document.branch_congr fun c hc => hw c ?_
      exact Document.refs_of_branch hb hc
    · rw [hnode] at hc
      exact hw c (Node.body_refs_sub _ hc)

theorem Manner.orderly_whole : Manner.Orderly Manner.whole True where
  isLocal := Manner.local_whole
  textual := Manner.textual_whole
  of_none h := by simp [Manner.whole, Node.body?, h]
  of_body h _ := by simp [Manner.whole, Node.body?, h]

end Stencil
