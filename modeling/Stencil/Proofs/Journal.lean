import Stencil.Proofs.Outcome

/-!
# What happens along the way

A computation ends with a result or an error, but what is said about it may also be about what it meets
on its way. A journal of a computation gives, for the state it starts in, what is met in order.

`Witnesses` says what holds of a result, of an error, of the state that is left with either, and of
everything in the journal. `Noting` is a computation with a journal.
-/

namespace Stencil

open List

variable {ε σ α β γ : Type}

/-- What is met by a computation that starts in a given state. -/
abbrev Journal (σ γ : Type) := σ → List γ

def Journal.afterResult (next : α → Journal σ γ) : EStateM.Result ε σ α → List γ
  | .ok a s => next a s
  | .error _ _ => []

namespace Journal

/-- The journal of a computation and of what is done with its result. -/
def bind (x : EStateM ε σ α) (first : Journal σ γ) (next : α → Journal σ γ) : Journal σ γ := fun s =>
  first s ++ afterResult next (x s)

def forM (f : α → EStateM ε σ PUnit) (each : α → Journal σ γ) : List α → Journal σ γ
  | [] => fun _ => []
  | a :: as => bind (f a) (each a) fun _ => forM f each as

def foldlM (f : β → α → EStateM ε σ β) (each : β → α → Journal σ γ) :
    List α → β → Journal σ γ
  | [], _ => fun _ => []
  | a :: as, b => bind (f b a) (each b a) fun b => foldlM f each as b

end Journal

/-- Started in `s`, a computation gives a result and a state with `Q`, or an error and a state with
`E`, and all that is in its journal has `P`. -/
structure Witnesses (x : EStateM ε σ α) (journal : Journal σ γ) (s : σ) (Q : α → σ → Prop)
    (E : ε → σ → Prop) (P : γ → Prop) : Prop extends Yields x s Q E where
  all : ∀ p ∈ journal s, P p

namespace Witnesses

variable {x : EStateM ε σ α} {f : α → EStateM ε σ β} {first journal journal' : Journal σ γ}
  {next : α → Journal σ γ} {s t : σ} {Q R : α → σ → Prop} {Q' : β → σ → Prop} {E : ε → σ → Prop}
  {P : γ → Prop}

theorem of_eq {y : EStateM ε σ α} (hxy : x s = y t) (hjournal : journal s = journal' t)
    (h : Witnesses y journal' t Q E P) : Witnesses x journal s Q E P :=
  ⟨⟨fun a s' hok => h.ok a s' (hxy ▸ hok), fun e s' he => h.error e s' (hxy ▸ he)⟩,
    fun p hp => h.all p (hjournal ▸ hp)⟩

theorem pure {a : α} (h : Q a s) :
    Witnesses (pure a : EStateM ε σ α) (fun _ => ([] : List γ)) s Q E P :=
  ⟨.pure h, fun _ hp => by cases hp⟩

theorem bind (hx : Witnesses x first s R E P)
    (hf : ∀ a s', R a s' → Witnesses (f a) (next a) s' Q' E P) :
    Witnesses (x >>= f) (Journal.bind x first next) s Q' E P where
  toYields := hx.toYields.bind fun a s' h => (hf a s' h).toYields
  all p hp := by
    rcases mem_append.mp hp with hp | hp
    · exact hx.all p hp
    · cases hok : x s with
      | ok a s' => rw [hok] at hp; exact (hf a s' (hx.ok a s' hok)).all p hp
      | error e s' => rw [hok] at hp; cases hp

theorem forM {f : α → EStateM ε σ PUnit} {each : α → Journal σ γ} {l : List α} {I : σ → Prop}
    (hs : I s) (hf : ∀ a ∈ l, ∀ s, I s → Witnesses (f a) (each a) s (fun _ => I) E P) :
    Witnesses (l.forM f) (Journal.forM f each l) s (fun _ => I) E P := by
  induction l generalizing s with
  | nil => exact .pure hs
  | cons a l ih =>
    obtain ⟨ha, hl⟩ := forall_mem_cons.mp hf
    exact (ha s hs).bind fun _ _ hs' => ih hs' hl

theorem foldlM {f : β → α → EStateM ε σ β} {each : β → α → Journal σ γ} {l : List α} {b : β}
    {I : β → σ → Prop} (hs : I b s)
    (hf : ∀ a ∈ l, ∀ b s, I b s → Witnesses (f b a) (each b a) s I E P) :
    Witnesses (l.foldlM f b) (Journal.foldlM f each l b) s I E P := by
  induction l generalizing b s with
  | nil => exact .pure hs
  | cons a l ih =>
    obtain ⟨ha, hl⟩ := forall_mem_cons.mp hf
    rw [foldlM_cons]
    exact (ha b s hs).bind fun b' s' hs' => ih hs' hl

end Witnesses

structure Noting (ε σ γ α : Type) where
  run : EStateM ε σ α
  noted : Journal σ γ

namespace Noting

instance : Monad (Noting ε σ γ) where
  pure a := ⟨pure a, fun _ => []⟩
  bind x f := ⟨x.run >>= fun a => (f a).run, .bind x.run x.noted fun a => (f a).noted⟩

def silent (x : EStateM ε σ α) : Noting ε σ γ α := ⟨x, fun _ => []⟩

def look (question : σ → α) : Noting ε σ γ α := silent do return question (← get)

theorem run_bind {x : Noting ε σ γ α} {y : EStateM ε σ α} {f : α → Noting ε σ γ β}
    {g : α → EStateM ε σ β} (hx : x.run = y) (hf : ∀ a, (f a).run = g a) : (x >>= f).run = y >>= g := by
  show (x.run >>= fun a => (f a).run) = y >>= g
  rw [hx, funext hf]

theorem run_look_bind {question : σ → α} {f : α → Noting ε σ γ β} {g : σ → EStateM ε σ β}
    (h : ∀ s, (f (question s)).run = g s) : (look question >>= f).run = get >>= g := by
  funext s
  show (f (question s)).run s = g s s
  rw [h]

theorem run_forM {f : α → Noting ε σ γ PUnit} {g : α → EStateM ε σ PUnit}
    (hf : ∀ a, (f a).run = g a) (l : List α) : (l.forM f).run = l.forM g := by
  induction l with
  | nil => rfl
  | cons a l ih => exact run_bind (hf a) fun _ => ih

theorem run_mapM' {f : α → Noting ε σ γ β} {g : α → EStateM ε σ β} (hf : ∀ a, (f a).run = g a)
    (l : List α) : (l.mapM' f).run = l.mapM g := by
  rw [← mapM'_eq_mapM]
  induction l with
  | nil => rfl
  | cons a l ih => exact run_bind (hf a) fun _ => run_bind ih fun _ => rfl

end Noting

end Stencil
