import Mathlib

/-!
# Steps that succeed

What it takes for a computation that may fail to succeed: each of its steps does, one after the other.
Where the errors matter too, `Yields` says what holds of a result and what of an error. `Alike` compares
two runs: both succeed, or both stop with errors that correspond.
-/

namespace Stencil

open List

variable {γ δ : Type} {ε σ α β : Type}

theorem except_bind {x : Except ε α} {f : α → Except ε β} {b : β} :
    (x >>= f) = .ok b ↔ ∃ a, x = .ok a ∧ f a = .ok b := by
  cases x with
  | error e => simp [bind, Except.bind]
  | ok a => simp [bind, Except.bind]

theorem except_pure_eq_ok {a b : α} : (pure a : Except ε α) = .ok b ↔ a = b := by
  simp [pure, Except.pure]

theorem except_mapM_eq_ok {f : α → Except ε β} {l : List α} {r : List β} :
    l.mapM f = .ok r ↔ List.Forall₂ (fun a b => f a = .ok b) l r := by
  induction l generalizing r with
  | nil =>
    rw [mapM_nil, except_pure_eq_ok, List.forall₂_nil_left_iff, eq_comm]
  | cons a l ih =>
    rw [mapM_cons, except_bind]
    constructor
    · rintro ⟨b, hb, h⟩
      obtain ⟨bs, hbs, h⟩ := except_bind.mp h
      rw [← except_pure_eq_ok.mp h]
      exact .cons hb (ih.mp hbs)
    · intro h
      cases h with
      | cons hb hbs => exact ⟨_, hb, except_bind.mpr ⟨_, ih.mpr hbs, rfl⟩⟩

theorem exists_of_mem_forall₂ {R : α → β → Prop} {l : List α} {r : List β}
    (h : List.Forall₂ R l r) {b : β} (hb : b ∈ r) : ∃ a ∈ l, R a b := by
  induction h with
  | nil => cases hb
  | cons hab _ ih =>
    rcases mem_cons.mp hb with rfl | hb
    · exact ⟨_, mem_cons_self, hab⟩
    · obtain ⟨a, ha, hr⟩ := ih hb
      exact ⟨a, mem_cons_of_mem _ ha, hr⟩

theorem forall₂_imp_mem {R S : α → β → Prop} {l : List α} {r : List β} (h : List.Forall₂ R l r)
    (himp : ∀ a ∈ l, ∀ b ∈ r, R a b → S a b) : List.Forall₂ S l r := by
  induction h with
  | nil => exact .nil
  | cons hab _ ih =>
    refine .cons (himp _ mem_cons_self _ mem_cons_self hab) (ih fun a ha b hb => ?_)
    exact himp a (mem_cons_of_mem _ ha) b (mem_cons_of_mem _ hb)

theorem bind_eq_ok {x : EStateM ε σ α} {f : α → EStateM ε σ β} {s s' : σ} {b : β} :
    (x >>= f) s = .ok b s' ↔ ∃ a s1, x s = .ok a s1 ∧ f a s1 = .ok b s' := by
  show EStateM.bind x f s = .ok b s' ↔ _
  unfold EStateM.bind
  cases x s with
  | error e s1 => simp
  | ok a s1 => simp

theorem bind_eq_error {x : EStateM ε σ α} {f : α → EStateM ε σ β} {s s' : σ} {e : ε} :
    (x >>= f) s = .error e s' ↔
      x s = .error e s' ∨ ∃ a s1, x s = .ok a s1 ∧ f a s1 = .error e s' := by
  show EStateM.bind x f s = .error e s' ↔ _
  unfold EStateM.bind
  cases x s with
  | error e s1 => simp
  | ok a s1 => simp

theorem pure_eq_ok {a b : α} {s s' : σ} : (pure a : EStateM ε σ α) s = .ok b s' ↔ a = b ∧ s = s' := by
  show EStateM.Result.ok a s = .ok b s' ↔ _
  simp

theorem get_eq_ok {s s' t : σ} : (get : EStateM ε σ σ) s = .ok t s' ↔ s = t ∧ s = s' := by
  show EStateM.Result.ok s s = .ok t s' ↔ _
  simp

theorem get_bind (f : σ → EStateM ε σ β) (s : σ) : (get >>= f) s = f s s := rfl

/-- Whether a computation succeeds with a result and a state that pass a check. -/
def succeeds (x : EStateM ε σ α) (s : σ) (check : α → σ → Bool) : Bool :=
  match x s with
  | .ok a s' => check a s'
  | .error _ _ => false

theorem of_succeeds {x : EStateM ε σ α} {s : σ} {check : α → σ → Bool}
    (h : succeeds x s check = true) : ∃ a s', x s = .ok a s' ∧ check a s' = true := by
  unfold succeeds at h
  cases hx : x s with
  | ok a s' =>
    rw [hx] at h
    exact ⟨a, s', rfl, h⟩
  | error e s' => rw [hx] at h; cases h

/-- The state that a computation leaves, whichever way it ends. -/
def after (x : EStateM ε σ α) (s : σ) : σ :=
  match x s with
  | .ok _ s' => s'
  | .error _ s' => s'

section

variable {x : EStateM ε σ α} {s s' : σ}

theorem after_of_ok {a : α} (h : x s = .ok a s') : after x s = s' := by
  rw [after, h]

theorem after_of_error {e : ε} (h : x s = .error e s') : after x s = s' := by
  rw [after, h]

end

/-- Started in `s`, a computation gives a result and a state with `Q`, or an error and a state with
`E`. -/
structure Yields (x : EStateM ε σ α) (s : σ) (Q : α → σ → Prop) (E : ε → σ → Prop) : Prop where
  ok : ∀ a s', x s = .ok a s' → Q a s'
  error : ∀ e s', x s = .error e s' → E e s'

namespace Yields

variable {x : EStateM ε σ α} {f : α → EStateM ε σ β} {s : σ} {Q R : α → σ → Prop}
  {Q' : β → σ → Prop} {E E' : ε → σ → Prop}

theorem of_ok {a : α} {t : σ} (hx : x s = .ok a t) (h : Q a t) : Yields x s Q E where
  ok b t hok := by
    rw [hx] at hok
    cases hok
    exact h
  error e t he := by
    rw [hx] at he
    cases he

theorem of_error {e : ε} {t : σ} (hx : x s = .error e t) (h : E e t) : Yields x s Q E where
  ok b t hok := by
    rw [hx] at hok
    cases hok
  error e t he := by
    rw [hx] at he
    cases he
    exact h

theorem pure {a : α} (h : Q a s) : Yields (pure a : EStateM ε σ α) s Q E := .of_ok rfl h

theorem throw {e : ε} (h : E e s) : Yields (throw e : EStateM ε σ α) s Q E := .of_error rfl h

theorem congr {y : EStateM ε σ α} (hxy : x s = y s) (h : Yields y s Q E) : Yields x s Q E :=
  ⟨fun a s' hok => h.ok a s' (hxy ▸ hok), fun e s' he => h.error e s' (hxy ▸ he)⟩

theorem bind (h : Yields x s R E) (hf : ∀ a s', R a s' → Yields (f a) s' Q' E) :
    Yields (x >>= f) s Q' E where
  ok b s' hok := by
    obtain ⟨a, s1, hx, hb⟩ := bind_eq_ok.mp hok
    exact (hf a s1 (h.ok a s1 hx)).ok b s' hb
  error e s' he := by
    rcases bind_eq_error.mp he with hx | ⟨a, s1, hx, he⟩
    · exact h.error e s' hx
    · exact (hf a s1 (h.ok a s1 hx)).error e s' he

theorem self (h : Yields x s Q E) : Yields x s (fun a s' => x s = .ok a s' ∧ Q a s') E :=
  ⟨fun a s' hok => ⟨hok, h.ok a s' hok⟩, h.error⟩

theorem bind_ok {a : α} {s' : σ} (hx : x s = .ok a s') (h : Yields (f a) s' Q' E) :
    Yields (x >>= f) s Q' E := by
  have heq : (x >>= f) s = f a s' := by simp only [Bind.bind, EStateM.bind, hx]
  exact ⟨fun b t hok => h.ok b t (heq ▸ hok), fun e t he => h.error e t (heq ▸ he)⟩

theorem after {P : σ → Prop} (h : Yields x s (fun _ => P) fun _ => P) : P (after x s) := by
  rw [Stencil.after]
  cases hx : x s with
  | ok a s' => exact h.ok a s' hx
  | error e s' => exact h.error e s' hx

theorem mono (h : Yields x s R E) (hQ : ∀ a s', R a s' → Q a s') (hE : ∀ e s', E e s' → E' e s') :
    Yields x s Q E' :=
  ⟨fun a s' hok => hQ a s' (h.ok a s' hok), fun e s' he => hE e s' (h.error e s' he)⟩

theorem forM_range {f : Nat → EStateM ε σ PUnit} {P : Nat → σ → Prop} {n : Nat} (h : P 0 s)
    (hstep : ∀ i < n, ∀ s, P i s → Yields (f i) s (fun _ => P (i + 1)) E) :
    Yields ((List.range n).forM f) s (fun _ => P n) E := by
  induction n with
  | zero => exact .pure h
  | succ n ih =>
    rw [range_succ, forM_eq_forM, forM_append]
    refine (ih fun i hi => hstep i (Nat.lt_succ_of_lt hi)).bind fun _ s1 h1 => ?_
    rw [forM_cons, forM_nil]
    exact (hstep n (Nat.lt_succ_self n) s1 h1).bind fun _ s2 h2 => .pure h2

end Yields

/-- Two runs end alike: with results and states in `R`, or with errors in `E`. -/
inductive Alike {τ : Type} (E : ε → ε → Prop) (R : α → σ → β → τ → Prop) :
    EStateM.Result ε σ α → EStateM.Result ε τ β → Prop where
  | ok {a : α} {s : σ} {b : β} {t : τ} : R a s b t → Alike E R (.ok a s) (.ok b t)
  | error {e e' : ε} {s : σ} {t : τ} : E e e' → Alike E R (.error e s) (.error e' t)

namespace Alike

variable {τ : Type} {E : ε → ε → Prop} {R : α → σ → β → τ → Prop} {S : γ → σ → δ → τ → Prop}
  {x : EStateM ε σ α} {y : EStateM ε τ β} {f : α → EStateM ε σ γ} {g : β → EStateM ε τ δ}
  {s : σ} {t : τ}

theorem bind (h : Alike E R (x s) (y t))
    (hfg : ∀ a s' b t', x s = .ok a s' → R a s' b t' → Alike E S (f a s') (g b t')) :
    Alike E S ((x >>= f) s) ((y >>= g) t) := by
  show Alike E S (EStateM.bind x f s) (EStateM.bind y g t)
  unfold EStateM.bind
  generalize hx : x s = r at h
  generalize y t = r' at h
  cases h with
  | ok h => exact hfg _ _ _ _ hx h
  | error h => exact .error h

theorem mono {R' : α → σ → β → τ → Prop} {r : EStateM.Result ε σ α} {r' : EStateM.Result ε τ β}
    (h : Alike E R r r') (hR : ∀ a s b t, r = .ok a s → R a s b t → R' a s b t) : Alike E R' r r' := by
  cases h with
  | ok h => exact .ok (hR _ _ _ _ rfl h)
  | error h => exact .error h

end Alike

inductive AlikeExcept (E : ε → ε → Prop) (R : α → β → Prop) : Except ε α → Except ε β → Prop where
  | ok {a : α} {b : β} : R a b → AlikeExcept E R (.ok a) (.ok b)
  | error {e e' : ε} : E e e' → AlikeExcept E R (.error e) (.error e')

namespace AlikeExcept

variable {E : ε → ε → Prop} {R : α → β → Prop} {S : γ → δ → Prop}

theorem bind {x : Except ε α} {y : Except ε β} {f : α → Except ε γ} {g : β → Except ε δ}
    (h : AlikeExcept E R x y) (hfg : ∀ a b, R a b → AlikeExcept E S (f a) (g b)) :
    AlikeExcept E S (x >>= f) (y >>= g) := by
  cases h with
  | ok h => exact hfg _ _ h
  | error h => exact .error h

theorem mapM {f : α → Except ε γ} {g : β → Except ε δ} {l : List α} {l' : List β}
    (hfg : List.Forall₂ (fun a b => AlikeExcept E S (f a) (g b)) l l') :
    AlikeExcept E (List.Forall₂ S) (l.mapM f) (l'.mapM g) := by
  induction hfg with
  | nil => exact .ok .nil
  | cons h _ ih =>
    rw [mapM_cons, mapM_cons]
    exact h.bind fun a b hab => ih.bind fun as bs habs => .ok (.cons hab habs)

end AlikeExcept

end Stencil
