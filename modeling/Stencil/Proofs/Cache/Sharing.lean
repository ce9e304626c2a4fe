import Stencil.Proofs.Cache.Media

/-!
# Sharing a cache

Compilations with sources, options and libraries of their own may share one cache, which is passed on
from each to the next, whether it has succeeded or not. **Sharing goes unnoticed**
(`Request.sharing_unnoticed`): each gives what it would give with a cache of its own. This rests on one
assumption about the hash: it tells apart the streams that are hashed on the way.
-/

namespace Stencil

open Document List

variable {F : List String → Prop}

namespace Asking

open Noting

def finishTemplate : Asking Job Unit := do
  silent Template.applyConfig
  let o ← silent Work.options
  silent (Work.onlyIf o.preprocessVariables
    (Work.apply (Template.substituteVariables o.knownVariables)))
  silent (Work.onlyIf o.removeBlockTags (Work.apply (·.collapseKind root .block)))
  silent (Work.onlyIf o.preprocessMacros (Work.apply Template.expandMacros))
  silent (Work.onlyIf o.preprocessIfdebug (Work.apply (Template.resolveDebug o.debug)))
  silent (Work.onlyIf o.mergeAllLoadTags (Work.apply Template.groupLoads))
  silent (Work.apply Template.removeComments)
  onlyIf o.isHtml process

/-- Reads the main template, which goes through the passes. -/
def parseTemplate (path source : String) : Asking Session Document := do
  let capacity ← look (·.templates.capacity)
  Noting.onSource path source do
    silent (assemble (loadTemplate (capacity + 1)))
    finishTemplate

def compileTemplate (path source : String) : Asking Session String := do
  return (← parseTemplate path source).output

theorem run_finishTemplate : finishTemplate.run = Stencil.finishTemplate :=
  run_bind rfl fun _ => run_bind rfl fun _ => run_bind rfl fun _ => run_bind rfl fun _ =>
    run_bind rfl fun _ => run_bind rfl fun _ => run_bind rfl fun _ => run_bind rfl fun _ =>
    run_onlyIf run_process _

theorem run_compileTemplate (path source : String) :
    (compileTemplate path source).run = Stencil.compileTemplate path source :=
  run_bind (run_look_bind fun _ => congrArg (Stencil.onSource path source)
    (run_bind rfl fun _ => run_finishTemplate)) fun _ => rfl

theorem onSource_discreet {w : Asking Job Unit} (hw : Discreet F w) (path source : String) :
    Discreet F (Noting.onSource path source w) where
  parallel {s t} h hasked := by
    have hw' := hw.parallel (h.job (ofSource path source)) hasked
    show Parallel F (Stencil.onSource path source w.run s) (Stencil.onSource path source w.run t)
    rw [Stencil.onSource, Stencil.onSource]
    generalize w.run ⟨s, ofSource path source⟩ = r at hw'
    generalize w.run ⟨t, ofSource path source⟩ = r' at hw'
    cases hw' with
    | @ok _ i j h' =>
      show Parallel F (.ok i.document i.session) (.ok j.document j.session)
      rw [h'.document_eq]
      exact .ok h'.session
    | error h' => exact .error h'.session
  mem_keys s k := by
    refine Iff.trans ?_ (hw.mem_keys ⟨s, ofSource path source⟩ k)
    show k ∈ (cache (after (Stencil.onSource path source w.run) s)).keys ↔ _
    rw [after, after, Stencil.onSource]
    cases w.run ⟨s, ofSource path source⟩ <;> rfl

theorem finishTemplate_discreet (hinj : ∀ p q, F p → F q → Key.ofParts p = Key.ofParts q → p = q) :
    Discreet F finishTemplate :=
  (Discreet.silent Template.applyConfig_ignoresCache).bind fun _ =>
    (Discreet.silent .options).bind fun _ => (Discreet.silent (.onlyIf (.apply _) _)).bind fun _ =>
    (Discreet.silent (.onlyIf (.apply _) _)).bind fun _ =>
    (Discreet.silent (.onlyIf (.apply _) _)).bind fun _ =>
    (Discreet.silent (.onlyIf (.apply _) _)).bind fun _ =>
    (Discreet.silent (.onlyIf (.apply _) _)).bind fun _ =>
    (Discreet.silent (.apply _)).bind fun _ => (process_discreet hinj).onlyIf _

theorem compileTemplate_discreet
    (hinj : ∀ p q, F p → F q → Key.ofParts p = Key.ofParts q → p = q) (path source : String) :
    Discreet F (compileTemplate path source) :=
  ((Discreet.look fun _ _ => rfl).bind fun _ => onSource_discreet
    ((Discreet.silent (assemble_ignoresCache (loadTemplate_ignoresCache _))).bind fun _ =>
      finishTemplate_discreet hinj) path source).bind fun _ => .pure _

end Asking

/-- A compilation in a session of its own. The cache of the session is given when it is carried
out. -/
structure Request where
  session : Session := {}
  path : String
  source : String

/-- What a compilation gives: its output or an error, and the session it leaves, without the cache. -/
structure Answer where
  result : Except Error String
  session : Session

namespace Request

def start (r : Request) (c : Cache) : Session := { r.session with cache := c }

/-- What the compilation gives with a given cache. -/
def answer (r : Request) (c : Cache) : Answer :=
  match compileTemplate r.path r.source (r.start c) with
  | .ok output s => ⟨.ok output, { s with cache := {} }⟩
  | .error e s => ⟨.error e, { s with cache := {} }⟩

/-- The cache that the compilation leaves, whether it succeeds or not. -/
def cacheAfter (r : Request) (c : Cache) : Cache :=
  (after (compileTemplate r.path r.source) (r.start c)).cache

/-- The parts that the compilation asks a given cache for. -/
def asked (r : Request) (c : Cache) : List (List String) :=
  (Asking.compileTemplate r.path r.source).noted (r.start c)

/-- What compilations give that pass a cache on. -/
def answers : List Request → Cache → List Answer
  | [], _ => []
  | r :: rs, c => r.answer c :: answers rs (r.cacheAfter c)

/-- The parts that compilations ask for that pass a cache on. -/
def askedBy : List Request → Cache → List (List String)
  | [], _ => []
  | r :: rs, c => r.asked c ++ askedBy rs (r.cacheAfter c)

def cacheAfterAll (rs : List Request) (c : Cache) : Cache := rs.foldl (fun c r => r.cacheAfter c) c

/-- The streams of bytes that are hashed in the course of some compilations. -/
def hashed (rs : List Request) (c : Cache) : List (List UInt8) := (askedBy rs c).map Key.stream

variable {c : Cache}

theorem answer_eq (hinj : ∀ p q, F p → F q → Key.ofParts p = Key.ofParts q → p = q) (r : Request)
    (hc : c.Valid F) (hasked : ∀ p ∈ r.asked c, F p) :
    r.answer c = r.answer {} ∧ (r.cacheAfter c).Valid F := by
  have htwins : Twins F (r.start c) (r.start {}) := ⟨rfl, hc, Cache.valid_empty⟩
  have hparallel := (Asking.compileTemplate_discreet hinj r.path r.source).parallel htwins hasked
  rw [Asking.run_compileTemplate] at hparallel
  rw [answer, answer, cacheAfter, after]
  generalize compileTemplate r.path r.source (r.start c) = x at hparallel
  generalize compileTemplate r.path r.source (r.start {}) = y at hparallel
  cases hparallel with
  | @ok output s t h =>
    refine ⟨?_, h.left⟩
    show (⟨_, _⟩ : Answer) = ⟨_, { t with cache := {} }⟩
    rw [← h.agree]
    rfl
  | @error e s t h =>
    refine ⟨?_, h.left⟩
    show (⟨_, _⟩ : Answer) = ⟨_, { t with cache := {} }⟩
    rw [← h.agree]
    rfl

theorem mem_keys_cacheAfterAll (rs : List Request) (c : Cache) (k : Key) :
    k ∈ (cacheAfterAll rs c).keys ↔ k ∈ c.keys ∨ ∃ p ∈ askedBy rs c, Key.ofParts p = k := by
  induction rs generalizing c with
  | nil => simp [cacheAfterAll, askedBy]
  | cons r rs ih =>
    have hkeys := (Asking.compileTemplate_discreet (F := fun _ => False) (fun _ _ h => h.elim)
      r.path r.source).mem_keys (r.start c) k
    rw [Asking.run_compileTemplate] at hkeys
    show k ∈ (cacheAfterAll rs (r.cacheAfter c)).keys ↔ _
    rw [ih]
    simp only [askedBy, mem_append, or_and_right, exists_or]
    rw [← or_assoc]
    exact or_congr_left hkeys

theorem answers_eq (hinj : ∀ p q, F p → F q → Key.ofParts p = Key.ofParts q → p = q)
    (rs : List Request) (hc : c.Valid F) (hasked : ∀ p ∈ askedBy rs c, F p) :
    answers rs c = rs.map (·.answer {}) := by
  induction rs generalizing c with
  | nil => rfl
  | cons r rs ih =>
    obtain ⟨hanswer, hvalid⟩ := r.answer_eq hinj hc fun p hp =>
      hasked p (mem_append_left _ hp)
    rw [answers, map_cons, hanswer, ih hvalid fun p hp => hasked p (mem_append_right _ hp)]

/-- Compilations that share a cache give what each would give with a cache of its own: the same
output or error, the same warnings, dependencies and bundles. It is assumed that the hash tells the
streams apart that are hashed on the way; the keys in the shared cache are the hashes of just these
streams. -/
theorem sharing_unnoticed (requests : List Request)
    (hinj : Set.InjOn Key.ofBytes {b | b ∈ hashed requests {}}) :
    answers requests {} = requests.map (·.answer {}) ∧
      ∀ k, k ∈ (cacheAfterAll requests {}).keys ↔ ∃ b ∈ hashed requests {}, Key.ofBytes b = k := by
  constructor
  · refine answers_eq (F := (· ∈ askedBy requests {})) ?_ requests Cache.valid_empty fun _ => id
    intro p q hp hq hkey
    exact Key.stream_injective (hinj (List.mem_map_of_mem hp) (List.mem_map_of_mem hq) hkey)
  · intro k
    rw [mem_keys_cacheAfterAll]
    simp [Cache.keys, hashed, Key.ofParts]

/-- A page with a script, and a page that bundles a file with the same script. -/
def scriptPages : List Request :=
  [{ path := "first", source := "<script>f( 1 )</script>" },
   { path := "second"
     source := "\x7b% compress %\x7d<script src='/media/f.js'></script>\x7b% endcompress %\x7d"
     session := {
       options := { packExternalJavascript := true }
       media := .listing [("/media/f.js", some "f( 1 )")] } }]

theorem sharing_unnoticed_scriptPages :
    Set.InjOn Key.ofBytes {b | b ∈ hashed scriptPages {}} ∧
    hashed scriptPages {} = [["script", "f( 1 )"], ["script", "f( 1 )"], ["js", "f(1)"]].map
      Key.stream ∧
    answers scriptPages {} = scriptPages.map (·.answer {}) ∧
    ∀ k, k ∈ (cacheAfterAll scriptPages {}).keys ↔
      ∃ b ∈ hashed scriptPages {}, Key.ofBytes b = k := by
  have hasked : askedBy scriptPages {} =
      [["script", "f( 1 )"], ["script", "f( 1 )"], ["js", "f(1)"]] := by decide +kernel
  have hhashed : hashed scriptPages {} =
      [["script", "f( 1 )"], ["script", "f( 1 )"], ["js", "f(1)"]].map Key.stream := by
    rw [hashed, hasked]
  have hne : Key.ofParts ["script", "f( 1 )"] ≠ Key.ofParts ["js", "f(1)"] := by decide +kernel
  have hinj : Set.InjOn Key.ofBytes {b | b ∈ hashed scriptPages {}} := by
    intro b hb b' hb' heq
    change b ∈ hashed scriptPages {} at hb
    change b' ∈ hashed scriptPages {} at hb'
    rw [hhashed] at hb hb'
    simp only [List.map_cons, List.map_nil, List.mem_cons, List.not_mem_nil, or_false] at hb hb'
    rcases hb with rfl | rfl | rfl <;> rcases hb' with rfl | rfl | rfl
    all_goals first | rfl | exact absurd heq hne | exact absurd heq.symm hne
  exact ⟨hinj, hhashed, sharing_unnoticed scriptPages hinj⟩

end Request

end Stencil
