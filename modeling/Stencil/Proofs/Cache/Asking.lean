import Stencil.Proofs.Media.Contents
import Stencil.Proofs.Template.Loading

/-!
# Asking a cache

Most of what a compilation does has nothing to do with the cache of its session (`IgnoresCache`).
`Asking` is a computation whose journal has the parts it asks for, in order.

Two states are twins if they agree in all but their caches and both caches are valid. `Discreet` says
that **asking goes unnoticed**: from twins, a computation ends with the same result or error and leaves
twins, if the hash tells the parts it asks for apart.
-/

namespace Stencil

open List

variable {F : List String → Prop} {σ α β : Type}

/-- A state that a cache is a part of. -/
class HasCache (σ : Type) where
  cache : σ → Cache
  withCache : σ → Cache → σ
  cache_withCache (s : σ) (c : Cache) : cache (withCache s c) = c
  withCache_withCache (s : σ) (c c' : Cache) : withCache (withCache s c) c' = withCache s c'
  withCache_cache (s : σ) : withCache s (cache s) = s

export HasCache (cache withCache cache_withCache withCache_withCache withCache_cache)

instance : HasCache Session where
  cache := Session.cache
  withCache s c := { s with cache := c }
  cache_withCache _ _ := rfl
  withCache_withCache _ _ _ := rfl
  withCache_cache _ := rfl

instance : HasCache Job where
  cache j := j.session.cache
  withCache j c := { j with session.cache := c }
  cache_withCache _ _ := rfl
  withCache_withCache _ _ _ := rfl
  withCache_cache _ := rfl

attribute [simp] cache_withCache withCache_withCache withCache_cache

def Outcome.withCache [HasCache σ] (c : Cache) : EStateM.Result Error σ α → EStateM.Result Error σ α
  | .ok a s => .ok a (Stencil.withCache s c)
  | .error e s => .error e (Stencil.withCache s c)

theorem Outcome.withCache_bind [HasCache σ] {x : EStateM Error σ α} {f : α → EStateM Error σ β} {s : σ}
    {c : Cache} (hx : x (Stencil.withCache s c) = withCache c (x s))
    (hf : ∀ a s', x s = .ok a s' → f a (Stencil.withCache s' c) = withCache c (f a s')) :
    (x >>= f) (Stencil.withCache s c) = withCache c ((x >>= f) s) := by
  show EStateM.bind x f (Stencil.withCache s c) = withCache c (EStateM.bind x f s)
  rw [EStateM.bind, EStateM.bind, hx]
  cases hok : x s with
  | ok a s' => exact hf a s' hok
  | error e s' => rfl

/-- The computation does the same with any cache and leaves it alone. -/
def IgnoresCache [HasCache σ] (x : EStateM Error σ α) : Prop :=
  ∀ s c, x (withCache s c) = Outcome.withCache c (x s)

namespace IgnoresCache

section

variable [HasCache σ] {x : EStateM Error σ α}

theorem pure (a : α) : IgnoresCache (Pure.pure a : EStateM Error σ α) := fun _ _ => rfl

theorem throw (e : Error) : IgnoresCache (throw e : EStateM Error σ α) := fun _ _ => rfl

theorem bind {f : α → EStateM Error σ β} (hx : IgnoresCache x) (hf : ∀ a, IgnoresCache (f a)) :
    IgnoresCache (x >>= f) := fun s c =>
  Outcome.withCache_bind (hx s c) fun a s' _ => hf a s' c

theorem get_bind {f : σ → EStateM Error σ α} (hsame : ∀ s c, f (withCache s c) = f s)
    (hf : ∀ s, IgnoresCache (f s)) : IgnoresCache (get >>= f) := by
  intro s c
  rw [Stencil.get_bind, Stencil.get_bind, hsame]
  exact hf s s c

theorem modify {f : σ → σ} (hf : ∀ s c, f (withCache s c) = withCache (f s) c) :
    IgnoresCache (modify f : EStateM Error σ Unit) := by
  intro s c
  show EStateM.Result.ok () (f (withCache s c)) = .ok () (withCache (f s) c)
  rw [hf]

theorem forM {f : α → EStateM Error σ PUnit} (hf : ∀ a, IgnoresCache (f a)) (l : List α) :
    IgnoresCache (l.forM f) := by
  induction l with
  | nil => exact .pure PUnit.unit
  | cons a l ih => exact (hf a).bind fun _ => ih

theorem cache_after (hx : IgnoresCache x) (s : σ) : cache (after x s) = cache s := by
  have h := hx s (cache s)
  rw [withCache_cache] at h
  rw [after]
  cases hxs : x s with
  | ok a s' =>
    rw [hxs, Outcome.withCache] at h
    injection h with _ h
    rw [h, cache_withCache]
  | error e s' =>
    rw [hxs, Outcome.withCache] at h
    injection h with _ h
    rw [h, cache_withCache]

end

theorem edit (e : Edit α) : IgnoresCache (Work.edit e) := by
  intro j c
  show Work.edit e ⟨_, j.document⟩ = _
  rw [Work.edit, Work.edit]
  cases e j.document <;> rfl

theorem apply (f : Document → Document) : IgnoresCache (Work.apply f) := fun _ _ => rfl

theorem perform (f : Document → α × Document) : IgnoresCache (Work.perform f) := fun _ _ => rfl

theorem document : IgnoresCache Work.document := fun _ _ => rfl

theorem options : IgnoresCache Work.options := fun _ _ => rfl

theorem task {t : SessionM α} (ht : IgnoresCache t) : IgnoresCache (Work.task t) := by
  intro j c
  have h := ht j.session c
  show Work.task t ⟨withCache j.session c, j.document⟩ = _
  rw [Work.task, Work.task, h]
  cases t j.session <;> rfl

theorem onlyIf {w : Work Unit} (hw : IgnoresCache w) (switch : Bool) :
    IgnoresCache (Work.onlyIf switch w) := by
  cases switch with
  | true => exact hw
  | false => exact .pure ()

end IgnoresCache

/-- A computation and the parts whose content it asks the cache for. -/
abbrev Asking (σ α : Type) := Noting Error σ (List String) α

namespace Asking

def fetch (parts : List String) (compute : Unit → Except Error String) :
    Asking Session (Except Error String) :=
  ⟨SessionM.cached (Key.ofParts parts) compute, fun _ => [parts]⟩

end Asking

/-- States that agree in all but their caches, which are both valid. -/
structure Twins [HasCache σ] (F : List String → Prop) (s t : σ) : Prop where
  agree : withCache s (cache t) = t
  left : (cache s).Valid F
  right : (cache t).Valid F

section

variable {i j : Job}

theorem Twins.document_eq (h : Twins F i j) : i.document = j.document := by
  rw [← h.agree]
  rfl

theorem Twins.session (h : Twins F i j) : Twins F i.session j.session :=
  ⟨congrArg Job.session h.agree, h.left, h.right⟩

theorem Twins.job {s t : Session} (h : Twins F s t) (d : Document) : Twins F (⟨s, d⟩ : Job) ⟨t, d⟩ :=
  ⟨congrArg (fun s => (⟨s, d⟩ : Job)) h.agree, h.left, h.right⟩

end

/-- Two runs that end with the same result or error in states that are twins. -/
inductive Parallel [HasCache σ] (F : List String → Prop) :
    EStateM.Result Error σ α → EStateM.Result Error σ α → Prop where
  | ok {a : α} {s t : σ} : Twins F s t → Parallel F (.ok a s) (.ok a t)
  | error {e : Error} {s t : σ} : Twins F s t → Parallel F (.error e s) (.error e t)

/-- Asking goes unnoticed, and the keys of what is asked for are those that get a slot. -/
structure Asking.Discreet [HasCache σ] (F : List String → Prop) (x : Asking σ α) : Prop where
  parallel : ∀ {s t : σ}, Twins F s t → (∀ p ∈ x.noted s, F p) → Parallel F (x.run s) (x.run t)
  mem_keys : ∀ (s : σ) (k : Key), k ∈ (cache (after x.run s)).keys ↔
    k ∈ (cache s).keys ∨ ∃ p ∈ x.noted s, Key.ofParts p = k

namespace Asking.Discreet

section

variable [HasCache σ]

theorem silent {x : EStateM Error σ α} (hx : IgnoresCache x) : Discreet F (Noting.silent x) where
  parallel {s t} h _ := by
    have hkept := hx.cache_after s
    have heq := hx s (cache t)
    rw [h.agree] at heq
    rw [after] at hkept
    show Parallel F (x s) (x t)
    rw [heq]
    cases hxs : x s with
    | ok a s' =>
      rw [hxs] at hkept
      exact .ok ⟨by rw [cache_withCache], by rw [hkept]; exact h.left,
        by rw [cache_withCache]; exact h.right⟩
    | error e s' =>
      rw [hxs] at hkept
      exact .error ⟨by rw [cache_withCache], by rw [hkept]; exact h.left,
        by rw [cache_withCache]; exact h.right⟩
  mem_keys s k := by
    show k ∈ (cache (after x s)).keys ↔ _
    rw [hx.cache_after s]
    simp [Noting.silent]

theorem pure (a : α) : Discreet F (Pure.pure a : Asking σ α) := silent (.pure a)

theorem look {question : σ → α} (h : ∀ s c, question (withCache s c) = question s) :
    Discreet F (Noting.look question) :=
  silent (.get_bind (fun s c => by rw [h]) fun s => .pure (question s))

theorem bind {x : Asking σ α} {f : α → Asking σ β} (hx : Discreet F x)
    (hf : ∀ a, Discreet F (f a)) : Discreet F (x >>= f) where
  parallel {s t} h hasked := by
    have hx' := hx.parallel h fun p hp => hasked p (mem_append_left _ hp)
    show Parallel F (EStateM.bind x.run (fun a => (f a).run) s)
      (EStateM.bind x.run (fun a => (f a).run) t)
    have hlater : ∀ p ∈ Journal.afterResult (fun a => (f a).noted) (x.run s), F p := fun p hp =>
      hasked p (mem_append_right _ hp)
    rw [EStateM.bind, EStateM.bind]
    generalize x.run s = r at hx' hlater
    generalize x.run t = r' at hx'
    cases hx' with
    | ok h' => exact (hf _).parallel h' hlater
    | error h' => exact .error h'
  mem_keys s k := by
    have hx' := hx.mem_keys s k
    show k ∈ (cache (after (EStateM.bind x.run fun a => (f a).run) s)).keys ↔
      k ∈ (cache s).keys ∨ ∃ p ∈ x.noted s ++ Journal.afterResult (fun a => (f a).noted) (x.run s),
        Key.ofParts p = k
    rw [after] at hx' ⊢
    rw [EStateM.bind]
    cases hxs : x.run s with
    | ok a s' =>
      rw [hxs] at hx'
      have hf' := (hf a).mem_keys s' k
      rw [after] at hf'
      simp only [Journal.afterResult, mem_append, or_and_right, exists_or]
      rw [hf', hx', or_assoc]
    | error e s' =>
      rw [hxs] at hx'
      simp only [Journal.afterResult, append_nil]
      exact hx'

theorem forM {f : α → Asking σ PUnit} (hf : ∀ a, Discreet F (f a)) (l : List α) :
    Discreet F (l.forM f) := by
  induction l with
  | nil => exact .pure PUnit.unit
  | cons a l ih => exact (hf a).bind fun _ => ih

theorem mapM' {f : α → Asking σ β} {l : List α} (hf : ∀ a ∈ l, Discreet F (f a)) :
    Discreet F (l.mapM' f) := by
  induction l with
  | nil => exact .pure []
  | cons a l ih =>
    obtain ⟨ha, hl⟩ := forall_mem_cons.mp hf
    exact ha.bind fun _ => (ih hl).bind fun _ => .pure _

end

theorem fetch {parts : List String} {compute : Unit → Except Error String}
    (hinj : ∀ p q, F p → F q → Key.ofParts p = Key.ofParts q → p = q)
    (hmade : ∀ content, Made parts content ↔ compute () = .ok content) :
    Discreet F (fetch parts compute) where
  parallel {s t} h hasked := by
    have hF : F parts := hasked parts mem_cons_self
    obtain ⟨hs, hleft⟩ := h.left.fetch hinj hF hmade
    obtain ⟨ht, hright⟩ := h.right.fetch hinj hF hmade
    show Parallel F (.ok (s.cache.fetch (Key.ofParts parts) compute).1 (withCache s _))
      (.ok (t.cache.fetch (Key.ofParts parts) compute).1 (withCache t _))
    rw [show (s.cache.fetch (Key.ofParts parts) compute).1 = compute () from hs,
      show (t.cache.fetch (Key.ofParts parts) compute).1 = compute () from ht]
    refine .ok ⟨?_, ?_, ?_⟩
    · rw [withCache_withCache, cache_withCache, ← h.agree, withCache_withCache]
    · rw [cache_withCache]
      exact hleft
    · rw [cache_withCache]
      exact hright
  mem_keys s k := by
    show k ∈ (s.cache.fetch (Key.ofParts parts) compute).2.keys ↔ _
    rw [Cache.mem_keys_fetch]
    simp [Asking.fetch, cache]

theorem task {t : Asking Session α} (ht : Discreet F t) : Discreet F (Noting.task t) where
  parallel {i j} h hasked := by
    have ht' := ht.parallel h.session hasked
    show Parallel F (Work.task t.run i) (Work.task t.run j)
    rw [Work.task, Work.task, h.document_eq]
    generalize t.run i.session = r at ht'
    generalize t.run j.session = r' at ht'
    cases ht' with
    | ok h' => exact .ok (h'.job _)
    | error h' => exact .error (h'.job _)
  mem_keys j k := by
    refine Iff.trans ?_ (ht.mem_keys j.session k)
    show k ∈ (cache (after (Work.task t.run) j)).keys ↔ _
    rw [after, after, Work.task]
    cases t.run j.session <;> rfl

theorem onlyIf {w : Asking Job Unit} (hw : Discreet F w) (switch : Bool) :
    Discreet F (Noting.onlyIf switch w) := by
  cases switch with
  | true => exact hw
  | false => exact .pure ()

end Asking.Discreet

end Stencil
