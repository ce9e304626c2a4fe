import Stencil.Proofs.Journal
import Stencil.Proofs.Lexing.Running

/-!
# The course of a run

Between two rules a run stands at a point: with its states, its open tokens, and the text that is behind
it and ahead of it.

So a property of runs that the rules of a grammar keep holds at every point of every run
(`Grammar.tokenize_witnesses`).
-/

namespace Stencil

variable {E : Error → Prop} {σ : Type}

namespace Run

variable [DecidableEq σ]

def scanCourse (g : Grammar σ) : (limit : Nat) → Run σ → Journal Document (Run σ)
  | 0, r => fun _ => [r]
  | limit + 1, r =>
    if r.ahead.isEmpty then fun _ => [r]
    else Journal.bind (r.step g) (fun _ => [r]) fun r => scanCourse g limit r

def readCourse (g : Grammar σ) (r : Run σ) (text : String) : Journal Document (Run σ) :=
  (r.load text).scanCourse g (r.load text).limit

def feedCourse (g : Grammar σ) (visit : NodeId → Run σ → Edit (Run σ))
    (visitCourse : NodeId → Run σ → Journal Document (Run σ)) :
    Branch → (stretch : String) → Run σ → Journal Document (Run σ)
  | [], stretch, r => r.readCourse g stretch
  | .text s :: more, stretch, r => feedCourse g visit visitCourse more (stretch ++ s) r
  | .node id :: more, stretch, r =>
    Journal.bind (r.read g stretch) (r.readCourse g stretch) fun r =>
      Journal.bind (visit id r) (visitCourse id r) fun r =>
        feedCourse g visit visitCourse more "" r

end Run

namespace Grammar

variable [DecidableEq σ]

/-- Reads fragments by a run of its own, which starts at a given place. -/
def readBranch (g : Grammar σ) (visit : NodeId → Run σ → Edit (Run σ)) (place : Place)
    (b : Branch) : Edit Branch := do
  let r ← Run.feed g visit b "" { place }
  r.finish g

def splitBranch (g : Grammar σ) (visit : NodeId → Run σ → Edit (Run σ)) (place : Place)
    (id : NodeId) (i : Nat) : Edit Unit := do
  let b ← g.readBranch visit place (← Edit.takeBranch id i)
  Edit.apply (·.setBranch id i b)

theorem tokenizeBranches_eq_forM (g : Grammar σ) (visit : NodeId → Run σ → Edit (Run σ)) (id : NodeId)
    (d : Document) : g.tokenizeBranches visit id d =
      (List.range (d.branches id).length).forM (g.splitBranch visit (d.place id) id) d := rfl

def branchesCourse (g : Grammar σ) (visit : NodeId → Run σ → Edit (Run σ))
    (visitCourse : NodeId → Run σ → Journal Document (Run σ)) (id : NodeId) :
    Journal Document (Run σ) := fun d =>
  Journal.forM (g.splitBranch visit (d.place id) id)
    (fun i d' => Run.feedCourse g visit visitCourse (d'.branch id i) "" { place := d.place id }
      (d'.setBranch id i []))
    (List.range (d.branches id).length) d

/-- The points that lie at or below a node that a run meets. -/
def visitCourse (g : Grammar σ) (through enter : List Kind) :
    (levels : Nat) → NodeId → Run σ → Journal Document (Run σ)
  | 0, _, _, _ => []
  | levels + 1, id, r, d =>
    if d.hasKind id through then
      Journal.foldlM (fun r b => Run.feed g (g.visit through enter levels) b "" r)
        (fun r b => Run.feedCourse g (g.visit through enter levels)
          (g.visitCourse through enter levels) b "" r)
        (d.branches id) (r.seek (d.place id)) (d.clear id)
    else if d.hasKind id enter then
      g.branchesCourse (g.visit through enter levels) (g.visitCourse through enter levels) id d
    else []

/-- The points of all runs when the branches of a node are split into tokens. -/
def course (g : Grammar σ) (through enter : List Kind) (id : NodeId) :
    Journal Document (Run σ) := fun d =>
  g.branchesCourse (g.visit through enter d.size) (g.visitCourse through enter d.size) id d

end Grammar

/-- A property of runs that holds at their start and that the engine keeps between rules, with what
is said about the errors at the end of a run. -/
structure Run.Lasting {σ : Type} (g : Grammar σ) (P : Run σ → Prop) (E : Error → Prop) : Prop where
  fresh : ∀ place : Place, P { place }
  load : ∀ {r : Run σ}, P r → ∀ text : String, P (r.load text)
  seek : ∀ {r : Run σ}, P r → ∀ place : Place, P (r.seek place)
  append : ∀ {r : Run σ}, P r → ∀ id : NodeId, P (r.append (.node id))
  openToken : ∀ place kind, E (.openToken place kind)
  openState : ∀ place state, E (.openState place state)

def Run.KeptByReading {σ : Type} [DecidableEq σ] (g : Grammar σ) (P : Run σ → Prop)
    (E : Error → Prop) : Prop :=
  ∀ {r : Run σ} (text : String) (d : Document), P r →
    Witnesses (r.read g text) (r.readCourse g text) d (fun r _ => P r) (fun e _ => E e) P

namespace Run

variable [DecidableEq σ] {g : Grammar σ} {P : Run σ → Prop}
  {visit : NodeId → Run σ → Edit (Run σ)} {visitCourse : NodeId → Run σ → Journal Document (Run σ)}

theorem scan_witnesses
    (hstep : ∀ {r : Run σ} (d : Document), P r → Yields (r.step g) d (fun r _ => P r) fun e _ => E e)
    (hlimit : ∀ place state near, E (.lex place (.endless state) near)) (limit : Nat) (r : Run σ)
    (d : Document) (h : P r) :
    Witnesses (r.scan g limit) (r.scanCourse g limit) d (fun r _ => P r) (fun e _ => E e) P := by
  have hpoint : ∀ {r : Run σ}, P r → ∀ p ∈ [r], P p := fun h p hp => by
    rwa [List.mem_singleton.mp hp]
  induction limit generalizing r d with
  | zero =>
    rw [scan, scanCourse]
    split_ifs
    · exact ⟨.pure h, hpoint h⟩
    · exact ⟨.throw (hlimit _ _ _), hpoint h⟩
  | succ limit ih =>
    rw [scan, scanCourse]
    split_ifs
    · exact ⟨.pure h, hpoint h⟩
    · exact Witnesses.bind ⟨hstep d h, hpoint h⟩ fun r d h => ih r d h

omit [DecidableEq σ] in
theorem finish_yields (hl : Lasting g P E) (r : Run σ) (d : Document) :
    Yields (r.finish g) d (fun _ _ => True) fun e _ => E e := by
  unfold finish
  cases r.opened with
  | cons t ts =>
    exact .bind_ok rfl (.throw (hl.openToken _ _))
  | nil =>
    cases r.states.find? (!g.mayEnd ·) with
    | some state => exact .throw (hl.openState _ _)
    | none => exact .pure trivial

variable (hl : Lasting g P E) (hread : KeptByReading g P E)
  (hvisit : ∀ {r : Run σ} (id : NodeId) (d : Document), P r →
    Witnesses (visit id r) (visitCourse id r) d (fun r _ => P r) (fun e _ => E e) P)

include hread hvisit in
theorem feed_witnesses (b : Branch) (stretch : String) (r : Run σ) (d : Document) (h : P r) :
    Witnesses (feed g visit b stretch r) (feedCourse g visit visitCourse b stretch r) d
      (fun r _ => P r) (fun e _ => E e) P := by
  induction b generalizing stretch r d with
  | nil => exact hread stretch d h
  | cons f b ih =>
    cases f with
    | text s => exact ih (stretch ++ s) r d h
    | node id =>
      exact (hread stretch d h).bind fun r d h => (hvisit id d h).bind fun r d h => ih "" r d h

include hl hread hvisit in
theorem branches_witnesses (id : NodeId) (d : Document) :
    Witnesses (g.tokenizeBranches visit id) (g.branchesCourse visit visitCourse id) d
      (fun _ _ => True) (fun e _ => E e) P := by
  refine .of_eq (t := d) (g.tokenizeBranches_eq_forM visit id d) (by rw [Grammar.branchesCourse])
    (Witnesses.forM (I := fun _ => True) trivial fun i _ d' _ => ?_)
  have hfeed := feed_witnesses hread hvisit (d'.branch id i) "" { place := d.place id }
    (d'.setBranch id i []) (hl.fresh _)
  have hbranch : Yields (g.readBranch visit (d.place id) (d'.branch id i)) (d'.setBranch id i [])
      (fun _ _ => True) fun e _ => E e := hfeed.toYields.bind fun r d _ => finish_yields hl r d
  refine .of_eq (t := d'.setBranch id i []) rfl rfl ⟨hbranch.bind fun b d _ => ?_,
    hfeed.all⟩
  exact ⟨fun _ _ _ => trivial, fun e d1 he => by cases he⟩

end Run

namespace Grammar

variable [DecidableEq σ] {g : Grammar σ} {P : Run σ → Prop}

theorem visit_witnesses (hl : Run.Lasting g P E) (hread : Run.KeptByReading g P E)
    (through enter : List Kind) (levels : Nat) {r : Run σ} (id : NodeId) (d : Document) (h : P r) :
    Witnesses (g.visit through enter levels id r) (g.visitCourse through enter levels id r) d
      (fun r _ => P r) (fun e _ => E e) P := by
  induction levels generalizing r id d with
  | zero => exact .pure h
  | succ levels ih =>
    by_cases hthrough : d.hasKind id through
    · -- the run goes on through the node
      refine .of_eq (t := d.clear id) ?_ ?_ (Witnesses.foldlM (I := fun r _ => P r)
        (l := d.branches id) (hl.seek h (d.place id)) fun b _ r d h =>
          Run.feed_witnesses hread ih b "" r d h)
      · rw [visit, get_bind, if_pos hthrough]
        rfl
      · rw [visitCourse, if_pos hthrough]
    · by_cases henter : d.hasKind id enter
      · -- the node is kept, and its branches have runs of their own
        have hbranches := Run.branches_witnesses hl hread ih id d
        refine .of_eq (t := d) ?_ ?_ 
          ⟨hbranches.toYields.bind fun _ d _ => .pure (hl.append h id), hbranches.all⟩
        · rw [visit, get_bind, if_neg hthrough, get_bind, if_pos henter]
        · rw [visitCourse, if_neg hthrough, if_pos henter]
      · refine .of_eq (t := d) ?_ ?_ (.pure (hl.append h id))
        · rw [visit, get_bind, if_neg hthrough, get_bind, if_neg henter]
        · rw [visitCourse, if_neg hthrough, if_neg henter]

theorem tokenize_witnesses (hl : Run.Lasting g P E) (hread : Run.KeptByReading g P E)
    (through enter : List Kind) (id : NodeId) (d : Document) :
    Witnesses (g.tokenize through enter id) (g.course through enter id) d (fun _ _ => True)
      (fun e _ => E e) P := by
  have hbranches := Run.branches_witnesses hl hread
    (visit_witnesses hl hread through enter d.size) id d
  exact .of_eq (g.tokenize_eq through enter id d) (by rw [course]) hbranches

end Grammar

end Stencil
