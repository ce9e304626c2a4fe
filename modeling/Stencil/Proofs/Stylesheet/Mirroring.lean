import Stencil.Proofs.Lexing.Mirroring
import Stencil.Stylesheet.Language

/-!
# A stylesheet in two documents

What is done to a stylesheet in a document of its own is done to it in a region of another document:
its urls are brought to their normal form (`normalizeUrls_trimmed`) and its blanks are compressed
(`compress_trimmed`).
-/

namespace Stencil

open Branch Document List

variable {b : Branch} {g : Fragment → Fragment}

namespace Stylesheet

variable {φ : NodeId → NodeId} {d0 d e : Document} {f : Fragment} {x : NodeId}

theorem mapText_renumber (g : String → String) (f : Fragment) :
    (mapText g f).renumber φ = mapText g (f.renumber φ) := by
  cases f <;> rfl

theorem mapHead_renumber (hg : ∀ f, (g f).renumber φ = g (f.renumber φ))
    (b : Branch) : (mapHead g b).renumber φ = mapHead g (b.renumber φ) := by
  cases b with
  | nil => rfl
  | cons f b => exact congrArg (· :: Branch.renumber φ b) (hg f)

theorem mapLast_renumber (hg : ∀ f, (g f).renumber φ = g (f.renumber φ))
    (b : Branch) : (mapLast g b).renumber φ = mapLast g (b.renumber φ) := by
  rw [mapLast, mapLast, renumber_reverse, mapHead_renumber hg, renumber_reverse]

theorem map_mapText_renumber (g : String → String) (b : Branch) :
    Branch.renumber φ (b.map (mapText g)) = (b.renumber φ).map (mapText g) := by
  simp only [Branch.renumber, map_map]
  exact map_congr_left fun f _ => mapText_renumber g f

theorem normalizeValue_renumber (base : Option String) (b : Branch) :
    (normalizeValue base b).renumber φ = normalizeValue base (b.renumber φ) := by
  simp only [normalizeValue]
  rw [← map_mapText_renumber, ← mapHead_renumber (mapText_renumber _),
    ← mapLast_renumber (mapText_renumber _)]
  generalize mapLast (mapText Text.trimEnd) _ = trimmed
  cases base with
  | none => rfl
  | some base =>
    cases trimmed with
    | nil => rfl
    | cons f more =>
      cases f with
      | node id => rfl
      | text url =>
        cases more with
        | nil =>
          show Branch.renumber φ (if isAbsolute url then _ else _) = if isAbsolute url then _ else _
          split_ifs <;> rfl
        | cons f' more => cases f' <;> rfl

theorem nodes_map_mapText (g : String → String) (b : Branch) :
    Branch.nodes (b.map (mapText g)) = b.nodes := by
  induction b with
  | nil => rfl
  | cons f b ih => cases f <;> simp [mapText, ih]

theorem nodes_mapHead (g : String → String) (b : Branch) :
    Branch.nodes (mapHead (mapText g) b) = b.nodes := by
  cases b with
  | nil => rfl
  | cons f b => cases f <;> rfl

theorem nodes_mapLast (g : String → String) (b : Branch) :
    Branch.nodes (mapLast (mapText g) b) = b.nodes := by
  rw [mapLast, nodes_reverse, nodes_mapHead, nodes_reverse, reverse_reverse]

theorem nodes_normalizeValue (base : Option String) (b : Branch) :
    (normalizeValue base b).nodes = b.nodes := by
  have htrimmed : ∀ g : String → String, Branch.nodes (mapLast (mapText Text.trimEnd)
      (mapHead (mapText Text.trimStart) (b.map (mapText g)))) = b.nodes := fun g => by
    rw [nodes_mapLast, nodes_mapHead, nodes_map_mapText]
  simp only [normalizeValue]
  split
  case h_1 base url heq =>
    rw [← htrimmed, heq]
    split_ifs <;> rfl
  case h_2 => exact htrimmed _

theorem kids_setBranch_zero {n : Node} (h : b.nodes = (n.branch 0).nodes) :
    (n.setBranch 0 b).branches.flatMap Branch.nodes = n.branches.flatMap Branch.nodes := by
  rw [Node.setBranch_zero]
  show (b :: n.branches.tail).flatMap Branch.nodes = _
  rw [flatMap_cons, h, Node.branch_zero, Node.children]
  cases n.branches <;> simp

theorem normalizeUrls_trimmed (base : Option String) (h : Mirror φ d e)
    (hfree : ∀ x, root ∉ d.kids x) (hs : Shallow d.kids d.size x) :
    Trimmed φ d (normalizeUrls base x d) (normalizeUrls base (φ x) e) := by
  rw [normalizeUrls, normalizeUrls, h.descendants_eq hfree hs, foldl_map]
  refine foldl_rel (r := Trimmed φ d) (.refl h) fun url _ d e h => ?_
  have hm := h.setBranch url 0 (normalizeValue base (d.branch url 0))
  rw [normalizeValue_renumber, ← h.branch_eq] at hm
  refine h.modify hm rfl rfl ?_
  rw [kids_setBranch_zero (n := d.node url) (nodes_normalizeValue base (d.branch url 0))]
  exact .refl _

theorem isOperator_mirror (h : Mirror φ d e) (hf : f ≠ .node root) :
    isOperator e (f.renumber φ) = isOperator d f := by
  cases f with
  | text s => rfl
  | node id =>
    show (e.kind (φ id) == _) = (d.kind id == _)
    rw [h.kind_eq id fun hid => hf (hid ▸ rfl)]

theorem keptBlank_mirror (h : Mirror φ d e) (edges : Bool) {before after : Option Fragment}
    (hb : before ≠ some (.node root)) (ha : after ≠ some (.node root)) :
    keptBlank e edges (before.map (·.renumber φ)) (after.map (·.renumber φ)) =
      keptBlank d edges before after := by
  have hany : ∀ {o : Option Fragment}, o ≠ some (.node root) →
      (o.map (·.renumber φ)).any (isOperator e) = o.any (isOperator d) := by
    intro o ho
    cases o with
    | none => rfl
    | some f => exact isOperator_mirror h fun heq => ho (heq ▸ rfl)
  simp only [keptBlank, Option.isNone_map, hany hb, hany ha]

theorem head?_ne_root (hb : ∀ c ∈ b.nodes, c ≠ root) : b.head? ≠ some (.node root) :=
  fun heq => hb root (mem_nodes.mpr (mem_of_mem_head? heq)) rfl

theorem compressBranch_trimmed {enter enter' : NodeId → Document → Document}
    (henter : ∀ x ∈ b.nodes, x ≠ root ∧ ∀ {d e : Document}, Trimmed φ d0 d e →
      Trimmed φ d0 (enter x d) (enter' (φ x) e))
    (h : Trimmed φ d0 d e) (edges : Bool) (before : Option Fragment)
    (hbef : before ≠ some (.node root)) :
    Trimmed φ d0 (compressBranch enter edges before b d)
      (compressBranch enter' edges (before.map (·.renumber φ)) (b.renumber φ) e) := by
  induction b generalizing before d e with
  | nil => exact h
  | cons f b ih =>
    cases f with
    | text s => exact ih henter h (some (.text s)) (by simp)
    | node id =>
      rw [nodes_cons_node, forall_mem_cons] at henter
      obtain ⟨⟨hne, hid⟩, henter⟩ := henter
      have hnext : b.head? ≠ some (.node root) := head?_ne_root fun c hc => (henter c hc).1
      have hhead : List.head? (Branch.renumber φ b) = b.head?.map (·.renumber φ) := head?_map
      rw [renumber_cons_node, compressBranch, compressBranch]
      refine ih henter ?_ (some (.node id)) (by simpa using hne)
      simp only [h.kind_eq id hne, hhead, keptBlank_mirror h.toMirror edges hbef hnext, h.ownText_eq]
      split
      · exact h.setText id _
      · exact h.setText id _
      · exact h
      · exact h
      · exact hid h

theorem compressNode_trimmed (hfree : ∀ x, root ∉ d0.refs x) {n m : Nat} (h : Trimmed φ d0 d e)
    (hn : Shallow d0.refs n x) (hm : Shallow d0.refs m x) (edges : Bool) :
    Trimmed φ d0 (compressNode n edges x d) (compressNode m edges (φ x) e) := by
  induction n generalizing x m d e edges with
  | zero => exact hn.elim
  | succ n ih =>
    obtain ⟨m, rfl⟩ := hm.exists_succ
    rw [compressNode, compressNode, h.branches_eq, length_map]
    refine foldl_rel (r := Trimmed φ d0) h fun i _ d e h => ?_
    rw [h.branch_eq]
    have hmem : ∀ c ∈ (d.branch x i).nodes, c ∈ d0.refs x := fun c hc => h.mem_refs hc
    refine compressBranch_trimmed (fun c hc => ⟨?_, fun h => ?_⟩) h edges none (by simp)
    · rintro rfl
      exact hfree x (hmem _ hc)
    · exact ih h (hn c (hmem c hc)) (hm c (hmem c hc)) false

theorem compress_trimmed (hfree : ∀ x, root ∉ d0.refs x) (h : Trimmed φ d0 d e)
    (hs : Shallow d0.refs d0.size x) : Trimmed φ d0 (compress d x) (compress e (φ x)) := by
  rw [compress, compress, h.size_eq]
  exact compressNode_trimmed hfree h hs (hs.mono (h.size_eq ▸ h.size_le)) true

theorem media_grammar : grammar.Media :=
  Grammar.media_of_subset fun state => by cases state <;> decide

theorem process_alike {region : NodeId} (base : Option String) (path : String)
    (hlt : region < e.size) (hb : e.branches region = [b]) (hn : b.nodes = [])
    (through enter : List Kind) :
    Alike Error.SameFault (fun _ d _ e' => Mirror (standing region e.size) d e' ∧ Ready d)
      (process base [] [] root (ofSource path b.text)) (process base through enter region e) := by
  refine (Grammar.tokenize_alike media_grammar path hlt hb hn through enter).bind ?_
  rintro _ d1 _ e1 - ⟨h1, htokens⟩
  have hu := htokens.uniqueOwner
  have hurls := normalizeUrls_trimmed base (x := root) h1
    (fun x hx => htokens.root_free x (d1.kids_sub x hx)) hu.shallow_kids
  have htrim := compress_trimmed htokens.root_free hurls hu.shallow
  refine .ok ⟨htrim.toMirror, ?_, ?_, ?_⟩
  · rw [htrim.kinds_eq, htokens.kind_eq]
  · rw [htrim.payload_eq, htokens.payload_eq]
  · refine (hu.of_sublist htrim.size_eq htrim.refs_sublist).shallow.of_subset fun x _ => ?_
    rw [uses, Node.uses_eq_refs (by rw [Node.naming?, htrim.payload_eq, htokens.payload_eq])]
    exact List.Subset.refl _

end Stylesheet

end Stencil
