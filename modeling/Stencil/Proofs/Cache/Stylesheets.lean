import Stencil.Proofs.Media.Contents

/-!
# Stylesheets with and without a url

A compiled stylesheet is stored under its source and its url, and a stylesheet without a url under
the empty text in place of one. So the parts of a key tell what is compiled, but for one case: the
empty url and no url at all. Where that case does not arise, **the parts of a key determine the
output** (`Call.answer_iff`), and calls that share a cache give what each gives on its own
(`Call.output_of_keyParts`).
-/

namespace Stencil.Stylesheet

open List

/-- A stylesheet to be compiled: its source, the path that errors name, and its url if it has one. -/
structure Call where
  source : String
  path : String
  url : Option String

namespace Call

/-- The parts of the key that the stylesheet is stored under. -/
def keyParts (c : Call) : List String := (language c.url).keyParts c.source

/-- What the call gives with a given cache, and the cache it leaves. -/
def run (c : Call) (cache : Cache) : Except Error String × Cache :=
  match (language c.url).compileFile c.path c.source { cache } with
  | .ok output s => (.ok output, s.cache)
  | .error e s => (.error e, s.cache)

/-- What the call gives with a cache of its own. -/
def answer (c : Call) : Except Error String := (c.run {}).1

def answers : List Call → Cache → List (Except Error String)
  | [], _ => []
  | c :: calls, cache => (c.run cache).1 :: answers calls (c.run cache).2

variable {a b c : Call} {calls : List Call} {cache : Cache} {output : String}

theorem run_eq_fetch (c : Call) (cache : Cache) : c.run cache =
    cache.fetch (Key.ofParts c.keyParts) fun _ => (language c.url).compileSource c.path c.source := by
  have hcached : (language c.url).compileCached c.path c.source { cache } =
      .ok (cache.fetch (Key.ofParts c.keyParts) fun _ =>
        (language c.url).compileSource c.path c.source).1 { cache := (cache.fetch (Key.ofParts c.keyParts)
          fun _ => (language c.url).compileSource c.path c.source).2 } := rfl
  rw [run, Language.compileFile]
  simp only [bind, EStateM.bind, hcached]
  generalize cache.fetch (Key.ofParts c.keyParts) _ = r
  obtain ⟨result, cache'⟩ := r
  cases result <;> rfl

theorem answer_eq (c : Call) : c.answer = (language c.url).compileSource c.path c.source := by
  have hemp : ({} : Cache).get? (Key.ofParts c.keyParts) = none := rfl
  rw [answer, run_eq_fetch, Cache.fetch, Cache.fetchM, hemp]
  cases (language c.url).compileSource c.path c.source <;> rfl

theorem url_eq_of_keyParts (hparts : a.keyParts = b.keyParts) (hnone : a.url = none ↔ b.url = none) :
    a.url = b.url ∧ a.source = b.source := by
  simp only [keyParts, language, cons.injEq, and_true, true_and] at hparts
  refine ⟨?_, hparts.2⟩
  cases ha : a.url <;> cases hb : b.url <;> simp_all

theorem answer_iff (hparts : a.keyParts = b.keyParts) (hnone : a.url = none ↔ b.url = none) :
    a.answer = .ok output ↔ b.answer = .ok output := by
  obtain ⟨hurl, hsource⟩ := url_eq_of_keyParts hparts hnone
  rw [answer_eq, answer_eq, hurl, hsource]
  have hl : (language b.url).Uniform := language_uniform b.url
  exact ⟨fun h => Language.compileSource_of_path hl h _, fun h => Language.compileSource_of_path hl h _⟩

/-- What is stored is the output of one of the calls. -/
def Fed (calls : List Call) (cache : Cache) : Prop :=
  ∀ k output, cache.get? k = some output →
    ∃ c ∈ calls, Key.ofParts c.keyParts = k ∧ c.answer = .ok output

theorem Fed.run (h : Fed calls cache) (hc : c ∈ calls)
    (hinj : Set.InjOn Key.ofParts {p | ∃ c ∈ calls, c.keyParts = p})
    (hurls : ∀ a ∈ calls, ∀ b ∈ calls, a.keyParts = b.keyParts → (a.url = none ↔ b.url = none)) :
    (c.run cache).1 = c.answer ∧ Fed calls (c.run cache).2 := by
  rw [run_eq_fetch, Cache.fetch, Cache.fetchM]
  cases hget : cache.get? (Key.ofParts c.keyParts) with
  | some output =>
    obtain ⟨b, hb, hkey, hok⟩ := h _ output hget
    have hparts := hinj ⟨b, hb, rfl⟩ ⟨c, hc, rfl⟩ hkey
    exact ⟨((answer_iff hparts (hurls b hb c hc hparts)).mp hok).symm, h⟩
  | none =>
    have hreserve : Fed calls (cache.reserve (Key.ofParts c.keyParts)) := fun k output hk =>
      h k output (Cache.get?_reserve ▸ hk)
    rw [answer_eq]
    cases hcompile : (language c.url).compileSource c.path c.source with
    | error e => exact ⟨rfl, hreserve⟩
    | ok output =>
      refine ⟨rfl, fun k output' hk => ?_⟩
      by_cases hkey : k = Key.ofParts c.keyParts
      · subst hkey
        rw [Cache.get?_fill_self hk]
        exact ⟨c, hc, rfl, by rw [answer_eq, hcompile]⟩
      · exact hreserve k output' (Cache.get?_fill_of_ne hkey ▸ hk)

/-- Among calls of which no two with the same key parts differ in that one has the empty url and the
other none, equal key parts give equal outputs. If the hash tells their parts apart too, each call gives
with a shared cache what it gives with a cache of its own. -/
theorem output_of_keyParts (calls : List Call)
    (hurls : ∀ a ∈ calls, ∀ b ∈ calls, a.keyParts = b.keyParts → (a.url = none ↔ b.url = none)) :
    (∀ a ∈ calls, ∀ b ∈ calls, a.keyParts = b.keyParts →
      ∀ output, a.answer = .ok output ↔ b.answer = .ok output) ∧
    (Set.InjOn Key.ofParts {p | ∃ c ∈ calls, c.keyParts = p} →
      answers calls {} = calls.map answer) := by
  refine ⟨fun a ha b hb hparts output => answer_iff hparts (hurls a ha b hb hparts), fun hinj => ?_⟩
  have hrun : ∀ {cs : List Call} {cache : Cache}, cs ⊆ calls → Fed calls cache →
      answers cs cache = cs.map answer := by
    intro cs
    induction cs with
    | nil => exact fun _ _ => rfl
    | cons c cs ih =>
      intro cache hcs hfed
      obtain ⟨hanswer, hfed'⟩ := hfed.run (hcs mem_cons_self) hinj hurls
      rw [answers, map_cons, hanswer, ih (fun x hx => hcs (mem_cons_of_mem _ hx)) hfed']
  exact hrun (Subset.refl _) fun k output hk => by cases hk

/-- One stylesheet at two places, the first of them under two paths. -/
def twoPlaces : List Call :=
  [⟨"a\x7bb:url(x.png)\x7d", "t.css", some "/one/t.css"⟩,
   ⟨"a\x7bb:url(x.png)\x7d", "u.css", some "/one/t.css"⟩,
   ⟨"a\x7bb:url(x.png)\x7d", "t.css", some "/two/t.css"⟩]

/-- The second call is answered with what is stored for the first. -/
theorem output_of_keyParts_twoPlaces :
    Set.InjOn Key.ofParts {p | ∃ c ∈ twoPlaces, c.keyParts = p} ∧
    (twoPlaces.map keyParts).dedup.length = 2 ∧ answers twoPlaces {} = twoPlaces.map answer := by
  have hne : Key.ofParts ["stylesheet", "/one/t.css", "a\x7bb:url(x.png)\x7d"] ≠
      Key.ofParts ["stylesheet", "/two/t.css", "a\x7bb:url(x.png)\x7d"] := by decide +kernel
  have hinj : Set.InjOn Key.ofParts {p | ∃ c ∈ twoPlaces, c.keyParts = p} := by
    rintro p ⟨a, ha, rfl⟩ q ⟨b, hb, rfl⟩ heq
    simp only [twoPlaces, mem_cons, not_mem_nil, or_false] at ha hb
    rcases ha with rfl | rfl | rfl <;> rcases hb with rfl | rfl | rfl
    case inr.inr.inl | inr.inr.inr.inl => exact absurd heq.symm hne
    case inl.inr.inr | inr.inl.inr.inr => exact absurd heq hne
    all_goals rfl
  refine ⟨hinj, by decide, (output_of_keyParts twoPlaces fun a ha b hb _ => ?_).2 hinj⟩
  simp only [twoPlaces, mem_cons, not_mem_nil, or_false] at ha hb
  rcases ha with rfl | rfl | rfl <;> rcases hb with rfl | rfl | rfl <;> simp

end Call

end Stencil.Stylesheet
