import Stencil.Proofs.Cache.Asking

/-!
# Putting templates together without the cache

Loading templates and putting them together has nothing to do with the cache of compiled media
(`assemble_ignoresCache`), however deep templates are loaded inside each other, and neither has what
configuration tags do.
-/

namespace Stencil

open Document

namespace SessionM

theorem loaded_ignoresCache (name : String) (place : Place) (r : Except LoadFault String) :
    IgnoresCache (loaded name place r) := by
  cases r with
  | ok content => exact .pure content
  | error fault => exact .throw _

theorem depend_withCache (name : String) (s : Session) (c : Cache) :
    (withCache s c).depend name = withCache (s.depend name) c := by
  show Session.depend { s with cache := c } name = _
  rw [Session.depend, Session.depend]
  split_ifs <;> rfl

theorem load_ignoresCache (name : String) (place : Place) : IgnoresCache (load name place) :=
  (IgnoresCache.modify (depend_withCache name)).bind fun _ =>
    .get_bind (fun _ _ => rfl) fun _ => loaded_ignoresCache name place _

theorem loadMedia_ignoresCache (url : String) (place : Place) : IgnoresCache (loadMedia url place) :=
  .get_bind (fun _ _ => rfl) fun _ => loaded_ignoresCache url place _

theorem reading_ignoresCache {α : Type} {name : String} {place : Place} {t : SessionM α}
    (ht : IgnoresCache t) : IgnoresCache (reading name place t) := by
  intro s c
  show reading name place t { s with cache := c } = _
  rw [reading, reading]
  by_cases hc : s.loading.contains name = true
  · rw [if_pos hc, if_pos hc]
    rfl
  · rw [if_neg hc, if_neg hc]
    have h : t ({ s with cache := c }.enter name) = Outcome.withCache c (t (s.enter name)) :=
      ht (s.enter name) c
    rw [h]
    cases t (s.enter name) <;> rfl

end SessionM

namespace Template

def Loader.IgnoresCache (load : Loader) : Prop := ∀ name place, Stencil.IgnoresCache (load name place)

theorem reportOrphan_ignoresCache (child : Document) (id : NodeId) :
    IgnoresCache (reportOrphan child id) := by
  refine .get_bind (fun _ _ => rfl) fun s => ?_
  split_ifs
  · exact .throw _
  · exact .modify fun _ _ => rfl

theorem ignoresCache_along : AlongEdits fun w _ (j : Job) => ∀ c, w (withCache j c) =
    Outcome.withCache c (w j) where
  pure a j := IgnoresCache.pure a j
  bind h hf c := Outcome.withCache_bind (h c) fun a j' hok => hf a j' hok c
  document h := h
  throw _ _ j := IgnoresCache.throw _ j
  apply f j := IgnoresCache.apply f j
  perform f j := IgnoresCache.perform f j
  parse j := IgnoresCache.edit parse j
  report child id j := IgnoresCache.task (reportOrphan_ignoresCache child id) j

end Template

theorem assemble_ignoresCache {load : Template.Loader} (hl : load.IgnoresCache) :
    IgnoresCache (assemble load) :=
  Template.ignoresCache_along.assemble (g := load) fun name place => IgnoresCache.task (hl name place)

theorem onSource_ignoresCache {w : Work Unit} (hw : IgnoresCache w) (path source : String) :
    IgnoresCache (onSource path source w) := by
  intro s c
  have h : w { session := { s with cache := c }, document := ofSource path source } =
      Outcome.withCache c (w { session := s, document := ofSource path source }) :=
    hw { session := s, document := ofSource path source } c
  show onSource path source w { s with cache := c } = _
  rw [onSource, onSource, h]
  cases w { session := s, document := ofSource path source } <;> rfl

theorem loadTemplate_ignoresCache (depth : Nat) : (loadTemplate depth).IgnoresCache := by
  induction depth with
  | zero => exact fun name place => .throw _
  | succ depth ih =>
    exact fun name place => (SessionM.load_ignoresCache name place).bind fun source =>
      SessionM.reading_ignoresCache (onSource_ignoresCache (assemble_ignoresCache ih) name source)

namespace Template

theorem changeOption_ignoresCache (place : Place) (name : String) :
    IgnoresCache (changeOption place name) := by
  intro s c
  show changeOption place name { s with cache := c } = _
  rw [changeOption, get_bind, get_bind]
  cases s.options.change? name <;> rfl

theorem applyConfig_ignoresCache : IgnoresCache applyConfig :=
  IgnoresCache.document.bind fun _ => .forM (fun _ => .forM
    (fun _ => IgnoresCache.task (changeOption_ignoresCache _ _)) _) _

end Template

end Stencil
