import Stencil.Work
import Stencil.Proofs.Doc.Tending
import Stencil.Proofs.Journal

/-!
# What work does

Work on a document in a session is put together from changes of the document, tasks of the session and
questions to both. `Work.Sustains` is what passes over a document keep: they leave trees.
-/

namespace Stencil

open List

variable {L : List NodeId} {j j' : Job} {α β : Type}

namespace Work

variable {a : α}

theorem edit_eq_ok {e : Edit α} : edit e j = .ok a j' ↔
    ∃ d, e j.document = .ok a d ∧ j' = { j with document := d } := by
  rw [edit]
  cases e j.document with
  | ok a d => simp [eq_comm]
  | error e d => simp

theorem task_eq_ok {t : SessionM α} : task t j = .ok a j' ↔
    ∃ s, t j.session = .ok a s ∧ j' = { j with session := s } := by
  rw [task]
  cases t j.session with
  | ok a s => simp [eq_comm]
  | error e s => simp

theorem apply_eq_ok {f : Document → Document} {u : Unit} : apply f j = .ok u j' ↔
    j' = { j with document := f j.document } :=
  ⟨fun h => by cases h; rfl, fun h => by rw [h]; rfl⟩

theorem document_onlyIf {f : Document → Document} {switch : Bool} {u : Unit}
    (h : onlyIf switch (apply f) j = .ok u j') :
    j'.document = if switch then f j.document else j.document := by
  cases switch with
  | true => exact congrArg Job.document (apply_eq_ok.mp h)
  | false => exact congrArg Job.document (pure_eq_ok.mp h).2.symm

theorem perform_eq_ok {f : Document → α × Document} : perform f j = .ok a j' ↔
    a = (f j.document).1 ∧ j' = { j with document := (f j.document).2 } :=
  ⟨fun h => by cases h; exact ⟨rfl, rfl⟩, fun h => by rw [h.1, h.2]; rfl⟩

theorem document_bind (w : Document → Work α) : (document >>= w) j = w j.document j := rfl

theorem apply_bind (f : Document → Document) (w : Unit → Work α) :
    (apply f >>= w) j = w () { j with document := f j.document } := rfl

theorem task_bind {t : SessionM α} {s : Session} (h : t j.session = .ok a s) (w : α → Work β) :
    (task t >>= w) j = w a { j with session := s } := by
  show EStateM.bind (task t) w j = _
  rw [EStateM.bind, task, h]

theorem options_bind (w : Options → Work α) : (options >>= w) j = w j.session.options j := rfl

end Work

namespace Noting

variable {γ : Type}

def task (t : Noting Error Session γ α) : Noting Error Job γ α :=
  ⟨Work.task t.run, fun j => t.noted j.session⟩

def onlyIf (switch : Bool) (w : Noting Error Job γ Unit) : Noting Error Job γ Unit :=
  if switch then w else pure ()

theorem run_task {t : Noting Error Session γ α} {u : SessionM α} (h : t.run = u) :
    (task t).run = Work.task u :=
  congrArg Work.task h

theorem run_onlyIf {w : Noting Error Job γ Unit} {v : Work Unit} (h : w.run = v) (switch : Bool) :
    (onlyIf switch w).run = Work.onlyIf switch v := by
  cases switch with
  | true => exact h
  | false => rfl

end Noting

namespace Work

variable {a : α}

structure Sustains (L : List NodeId) (w : Work α) : Prop where
  sustained : ∀ {j j' : Job} {a : α}, j.document.Grove L → w j = .ok a j' →
    j.document.Sustained j'.document L

namespace Sustains

theorem pure (a : α) : Sustains L (Pure.pure a : Work α) where
  sustained h hok := by
    obtain ⟨-, rfl⟩ := pure_eq_ok.mp hok
    exact .refl h

theorem bind {w : Work α} {f : α → Work β} (hw : Sustains L w) (hf : ∀ a, Sustains L (f a)) :
    Sustains L (w >>= f) where
  sustained h hok := by
    obtain ⟨a, j1, hok1, hok2⟩ := bind_eq_ok.mp hok
    have h1 := hw.sustained h hok1
    exact h1.trans ((hf a).sustained h1.grove hok2)

theorem task (t : SessionM α) : Sustains L (Work.task t) where
  sustained h hok := by
    obtain ⟨s, -, rfl⟩ := task_eq_ok.mp hok
    exact .refl h

theorem task_bind {t : SessionM α} {f : α → Work β} {P : α → Prop}
    (ht : ∀ {s s' : Session} {a : α}, t s = .ok a s' → P a) (hf : ∀ a, P a → Sustains L (f a)) :
    Sustains L (Work.task t >>= f) where
  sustained {j _ _} h hok := by
    obtain ⟨a, j1, hok1, hok2⟩ := bind_eq_ok.mp hok
    obtain ⟨s, hs, rfl⟩ := task_eq_ok.mp hok1
    exact (hf a (ht hs)).sustained (j := { j with session := s }) h hok2

theorem document_bind {f : Document → Work α} (hf : ∀ d, Sustains L (f d)) :
    Sustains L (Work.document >>= f) where
  sustained h hok := (hf _).sustained h hok

theorem apply {f : Document → Document}
    (hf : ∀ {d : Document}, d.Grove L → d.Sustained (f d) L) : Sustains L (Work.apply f) where
  sustained h hok := by
    obtain rfl := apply_eq_ok.mp hok
    exact hf h

theorem edit {e : Edit α}
    (he : ∀ {d d' : Document} {a : α}, d.Grove L → e d = .ok a d' → d.Sustained d' L) :
    Sustains L (Work.edit e) where
  sustained h hok := by
    obtain ⟨d, hd, rfl⟩ := edit_eq_ok.mp hok
    exact he h hd

theorem onlyIf {w : Work Unit} (hw : Sustains L w) (switch : Bool) :
    Sustains L (Work.onlyIf switch w) := by
  rw [Work.onlyIf]
  split_ifs
  · exact hw
  · exact pure ()

theorem mapM {f : α → Work β} {l : List α} (hf : ∀ a ∈ l, Sustains L (f a)) :
    Sustains L (l.mapM f) := by
  induction l with
  | nil => exact pure []
  | cons a l ih =>
    obtain ⟨ha, hl⟩ := forall_mem_cons.mp hf
    rw [mapM_cons]
    exact ha.bind fun _ => (ih hl).bind fun _ => pure _

theorem forM {f : α → Work PUnit} (hf : ∀ a, Sustains L (f a)) (l : List α) :
    Sustains L (l.forM f) := by
  induction l with
  | nil => exact pure PUnit.unit
  | cons a l ih => exact (hf a).bind fun _ => ih

end Sustains

theorem forM_sustained {f : NodeId → Work Unit} {l : List NodeId}
    (hf : ∀ {x j j'}, x < j.document.size → j.document.Grove L → f x j = .ok () j' →
      j.document.Sustained j'.document L)
    (hl : ∀ x ∈ l, x < j.document.size) (h : j.document.Grove L) (hok : l.forM f j = .ok () j') :
    j.document.Sustained j'.document L := by
  induction l generalizing j with
  | nil =>
    obtain ⟨-, rfl⟩ := pure_eq_ok.mp hok
    exact .refl h
  | cons x l ih =>
    obtain ⟨_, j1, hok1, hok2⟩ := bind_eq_ok.mp hok
    obtain ⟨hx, hl⟩ := forall_mem_cons.mp hl
    have h1 := hf hx h hok1
    exact h1.trans (ih (fun y hy => lt_of_lt_of_le (hl y hy) h1.size_le) h1.grove hok2)

/-- Where the work succeeds it leaves a document with a property if it started with one. -/
structure Keeps (P : Document → Prop) (w : Work α) : Prop where
  kept : ∀ {j j' : Job} {a : α}, P j.document → w j = .ok a j' → P j'.document

namespace Keeps

variable {P : Document → Prop}

theorem pure (a : α) : Keeps P (Pure.pure a : Work α) where
  kept h hok := by
    obtain ⟨-, rfl⟩ := pure_eq_ok.mp hok
    exact h

theorem bind {w : Work α} {f : α → Work β} (hw : Keeps P w) (hf : ∀ a, Keeps P (f a)) :
    Keeps P (w >>= f) where
  kept h hok := by
    obtain ⟨a, j1, hok1, hok2⟩ := bind_eq_ok.mp hok
    exact (hf a).kept (hw.kept h hok1) hok2

theorem task (t : SessionM α) : Keeps P (Work.task t) where
  kept h hok := by
    obtain ⟨s, -, rfl⟩ := task_eq_ok.mp hok
    exact h

theorem document_bind {f : Document → Work α} (hf : ∀ d, P d → Keeps P (f d)) :
    Keeps P (Work.document >>= f) where
  kept h hok := (hf _ h).kept h hok

theorem options_bind {f : Options → Work α} (hf : ∀ o, Keeps P (f o)) :
    Keeps P (Work.options >>= f) where
  kept h hok := (hf _).kept h hok

theorem apply {f : Document → Document} (hf : ∀ {d : Document}, P d → P (f d)) :
    Keeps P (Work.apply f) where
  kept h hok := by
    obtain rfl := apply_eq_ok.mp hok
    exact hf h

theorem edit {e : Edit α} (he : ∀ {d d' : Document} {a : α}, P d → e d = .ok a d' → P d') :
    Keeps P (Work.edit e) where
  kept h hok := by
    obtain ⟨d, hd, rfl⟩ := edit_eq_ok.mp hok
    exact he h hd

theorem onlyIf {w : Work Unit} (hw : Keeps P w) (switch : Bool) : Keeps P (Work.onlyIf switch w) := by
  rw [Work.onlyIf]
  split_ifs
  · exact hw
  · exact pure ()

theorem forM {f : α → Work PUnit} {l : List α} (hf : ∀ a ∈ l, Keeps P (f a)) : Keeps P (l.forM f) := by
  induction l with
  | nil => exact pure PUnit.unit
  | cons a l ih =>
    obtain ⟨ha, hl⟩ := forall_mem_cons.mp hf
    exact ha.bind fun _ => ih hl

theorem mapM {f : α → Work β} {Q : β → Prop} {l : List α} {bs : List β}
    (hf : ∀ a ∈ l, ∀ {j j' : Job} {b : β}, P j.document → f a j = .ok b j' → P j'.document ∧ Q b)
    (h : P j.document) (hok : l.mapM f j = .ok bs j') : P j'.document ∧ ∀ b ∈ bs, Q b := by
  induction l generalizing j bs with
  | nil =>
    obtain ⟨rfl, rfl⟩ := pure_eq_ok.mp hok
    exact ⟨h, fun b hb => absurd hb not_mem_nil⟩
  | cons a l ih =>
    obtain ⟨ha, hl⟩ := forall_mem_cons.mp hf
    rw [mapM_cons] at hok
    obtain ⟨b, j1, hok1, hok⟩ := bind_eq_ok.mp hok
    obtain ⟨bs, j2, hok2, hok⟩ := bind_eq_ok.mp hok
    obtain ⟨rfl, rfl⟩ := pure_eq_ok.mp hok
    obtain ⟨h1, hb⟩ := ha h hok1
    obtain ⟨h2, hbs⟩ := ih hl h1 hok2
    exact ⟨h2, forall_mem_cons.mpr ⟨hb, hbs⟩⟩

end Keeps

end Work

namespace Document

variable {d : Document} {id x : NodeId} {kinds closed : List Kind}

theorem Grove.lt_of_descendant (h : d.Grove L) (hx : x ∈ d.descendants id kinds closed) :
    x < d.size := by
  obtain ⟨p, -, hp⟩ := Relation.TransGen.tail'_iff.mp (encloses_of_descendant hx)
  exact h.lt_of_refs (d.kids_sub p hp)

theorem Grove.sustained_foldl_with {f : Document → NodeId → Document} {l : List NodeId}
    {I : Document → Prop}
    (hf : ∀ {x : NodeId} {d' : Document}, x ∈ l → d.size ≤ d'.size → d'.Grove L → I d' →
      d'.Sustained (f d' x) L ∧ I (f d' x)) (h : d.Grove L) (hI : I d) :
    d.Sustained (l.foldl f d) L ∧ I (l.foldl f d) := by
  refine List.foldlRecOn (motive := fun d' => d.Sustained d' L ∧ I d') l f ⟨.refl h, hI⟩
    fun d' ⟨hs, hI⟩ x hx => ?_
  obtain ⟨hs', hI'⟩ := hf hx hs.size_le hs.grove hI
  exact ⟨hs.trans hs', hI'⟩

theorem Grove.sustained_foldl {f : Document → NodeId → Document} {l : List NodeId}
    (hf : ∀ {x : NodeId} {d' : Document}, d.size ≤ d'.size → x < d'.size → d'.Grove L →
      d'.Sustained (f d' x) L)
    (hl : ∀ x ∈ l, x < d.size) (h : d.Grove L) : d.Sustained (l.foldl f d) L :=
  (h.sustained_foldl_with (I := fun _ => True) (fun hx hle h' _ =>
    ⟨hf hle (lt_of_lt_of_le (hl _ hx) hle) h', trivial⟩) trivial).1

end Document

end Stencil
