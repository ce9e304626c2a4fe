import Mathlib
import Stencil.Pattern.Basic
import Stencil.Proofs.Doc.Writing

/-!
# What patterns match

`Pattern.Describes p s` says that `s` is one of the texts of the pattern `p`. **What a pattern matches
is one of its texts, at the beginning of what it is matched with** (`Pattern.describes_of_split?`).
-/

namespace Stencil

open List

variable {accepts : Char → Bool} {s : List Char} {n : Nat} {w : String}

namespace Pattern

/-- How many characters a text of the pattern has at least. -/
def minLength : Pattern → Nat
  | empty | once _ | star _ _ => 0
  | one _ => 1
  | seq p q => p.minLength + q.minLength
  | alt p q => min p.minLength q.minLength

inductive Describes : Pattern → List Char → Prop where
  | empty : Describes .empty []
  | one {accepts : Char → Bool} {c : Char} : accepts c = true → Describes (.one accepts) [c]
  | once {mark : Nat} : Describes (.once mark) []
  | seq {p q : Pattern} {s t : List Char} : Describes p s → Describes q t →
      Describes (.seq p q) (s ++ t)
  | altFirst {p q : Pattern} {s : List Char} : Describes p s → Describes (.alt p q) s
  | altSecond {p q : Pattern} {s : List Char} : Describes q s → Describes (.alt p q) s
  | stop {greedy : Bool} {p : Pattern} : Describes (.star greedy p) []
  | more {greedy : Bool} {p : Pattern} {s t : List Char} : Describes p s →
      Describes (.star greedy p) t → Describes (.star greedy p) (s ++ t)

variable {α : Type} {a : α} {p q : Pattern} {matched rest : List Char}

theorem Search.orElse_eq_some {first second : Search α} {passed : Passed}
    (h : (Search.orElse first second passed).1 = some a) :
    (first passed).1 = some a ∨ ∃ passed', (second passed').1 = some a := by
  unfold Search.orElse at h
  split at h
  · next heq => exact .inl (by rw [heq]; exact h)
  · exact .inr ⟨_, h⟩

/-- A continuation finds something behind a text of the pattern. -/
def FindsAfter (p : Pattern) (k : Continuation α) (n : Nat) (s : List Char) (a : α) : Prop :=
  ∃ m rest passed, p.Describes m ∧ s = m ++ rest ∧ (k (n + m.length) rest passed).1 = some a

theorem findsAfter_of_rounds {greedy : Bool}
    (hbody : ∀ {k : Continuation α} {n : Nat} {s : List Char} {passed : Passed},
      (p.run k n s passed).1 = some a → p.FindsAfter k n s a)
    {k : Continuation α} {bound : List Char} {passed : Passed}
    (h : (rounds greedy (fun k => p.run k) k bound n s passed).1 = some a) :
    (star greedy p).FindsAfter k n s a := by
  induction bound generalizing n s passed with
  | nil => exact ⟨[], s, passed, .stop, rfl, h⟩
  | cons c bound ih =>
    have hmore : ∀ {passed}, (p.run (fun m rest => if m = n then k m rest
        else rounds greedy (fun k => p.run k) k bound m rest) n s passed).1 = some a →
        (star greedy p).FindsAfter k n s a := by
      intro passed h
      obtain ⟨m, rest, passed', hm, rfl, hk⟩ := hbody h
      beta_reduce at hk
      split_ifs at hk
      · have hround : (star greedy p).Describes (m ++ []) := .more hm .stop
        rw [append_nil] at hround
        exact ⟨m, rest, passed', hround, rfl, hk⟩
      · obtain ⟨m', rest', passed'', hm', rfl, hfound⟩ := ih hk
        refine ⟨m ++ m', rest', passed'', .more hm hm', (append_assoc ..).symm, ?_⟩
        rw [length_append, ← Nat.add_assoc]
        exact hfound
    have hstop : ∀ {passed}, (k n s passed).1 = some a → (star greedy p).FindsAfter k n s a :=
      fun {passed} h => ⟨[], s, passed, .stop, rfl, h⟩
    rw [rounds] at h
    cases greedy with
    | true =>
      rcases Search.orElse_eq_some h with h | ⟨passed', h⟩
      · exact hmore h
      · exact hstop h
    | false =>
      rcases Search.orElse_eq_some h with h | ⟨passed', h⟩
      · exact hstop h
      · exact hmore h

theorem findsAfter_of_run (p : Pattern) {k : Continuation α}
    {passed : Passed} (h : (p.run k n s passed).1 = some a) : p.FindsAfter k n s a := by
  induction p generalizing k n s passed with
  | empty => exact ⟨[], s, passed, .empty, rfl, h⟩
  | one accepts =>
    cases s with
    | nil => cases h
    | cons c s =>
      rw [run] at h
      split_ifs at h with hc
      · exact ⟨[c], s, passed, .one hc, rfl, h⟩
      · cases h
  | once mark =>
    rw [run, pass] at h
    split_ifs at h
    exact ⟨[], s, _, .once, rfl, h⟩
  | seq p q ihp ihq =>
    obtain ⟨m, rest, passed', hm, rfl, hq⟩ := ihp h
    obtain ⟨m', rest', passed'', hm', rfl, hk⟩ := ihq hq
    refine ⟨m ++ m', rest', passed'', .seq hm hm', (append_assoc ..).symm, ?_⟩
    rw [length_append, ← Nat.add_assoc]
    exact hk
  | alt p q ihp ihq =>
    rcases Search.orElse_eq_some h with h | ⟨passed', h⟩
    · obtain ⟨m, rest, passed'', hm, hs, h⟩ := ihp h
      exact ⟨m, rest, passed'', .altFirst hm, hs, h⟩
    · obtain ⟨m, rest, passed'', hm, hs, h⟩ := ihq h
      exact ⟨m, rest, passed'', .altSecond hm, hs, h⟩
  | star greedy p ih => exact findsAfter_of_rounds (fun h => ih h) h

theorem split?_eq_some (h : p.split? s = some (matched, rest)) :
    p.Describes matched ∧ s = matched ++ rest := by
  obtain ⟨⟨n, rest'⟩, hmatch, heq⟩ := Option.map_eq_some_iff.mp h
  obtain ⟨m, rest'', passed, hm, rfl, hk⟩ := findsAfter_of_run p hmatch
  cases heq
  cases hk
  rw [Nat.zero_add, take_left]
  exact ⟨hm, rfl⟩

theorem describes_of_split? (h : p.split? s = some (matched, rest)) : p.Describes matched :=
  (split?_eq_some h).1

theorem append_of_split? (h : p.split? s = some (matched, rest)) : matched ++ s.drop matched.length = s := by
  rw [(split?_eq_some h).2, drop_left]

theorem Describes.minLength_le (h : p.Describes s) : p.minLength ≤ s.length := by
  induction h with
  | seq _ _ ihp ihq => rw [minLength, length_append]; omega
  | altFirst _ ih => exact (Nat.min_le_left _ _).trans ih
  | altSecond _ ih => exact (Nat.min_le_right _ _).trans ih
  | _ => simp [minLength]

theorem describes_cons {ps : List Pattern} (h : (all (p :: ps)).Describes s) :
    ∃ t u, s = t ++ u ∧ p.Describes t ∧ (all ps).Describes u := by
  cases ps with
  | nil => exact ⟨s, [], (append_nil s).symm, h, .empty⟩
  | cons q ps =>
    cases h with
    | seq ht hu => exact ⟨_, _, rfl, ht, hu⟩

theorem describes_first {ps : List Pattern} (h : (first ps).Describes s) : ∃ p ∈ ps, p.Describes s := by
  induction ps with
  | nil =>
    cases h with
    | one hc => cases hc
  | cons p ps ih =>
    cases ps with
    | nil => exact ⟨p, mem_cons_self, h⟩
    | cons q ps =>
      cases h with
      | altFirst h => exact ⟨p, mem_cons_self, h⟩
      | altSecond h =>
        obtain ⟨r, hr, h⟩ := ih h
        exact ⟨r, mem_cons_of_mem _ hr, h⟩

theorem describes_lit (h : (lit w).Describes s) : s = w.toList := by
  rw [lit] at h
  generalize w.toList = cs at h
  induction cs generalizing s with
  | nil => cases h; rfl
  | cons c cs ih =>
    obtain ⟨t, u, rfl, ht, hu⟩ := describes_cons h
    cases ht with
    | one hc => rw [ih hu, beq_iff_eq.mp hc]; rfl

theorem describes_one (h : (one accepts).Describes s) : ∃ c, s = [c] ∧ accepts c = true := by
  cases h with
  | one hc => exact ⟨_, rfl, hc⟩

theorem describes_many (h : (many (one accepts)).Describes s) : ∀ c ∈ s, accepts c = true := by
  generalize hp : many (one accepts) = p at h
  induction h with
  | more hs _ _ ih =>
    obtain ⟨rfl, rfl⟩ : _ = true ∧ _ = one accepts := by
      simpa [many, eq_comm] using hp
    obtain ⟨c, rfl, hc⟩ := describes_one hs
    exact forall_mem_cons.mpr ⟨hc, ih hp⟩
  | stop => exact fun c hc => absurd hc not_mem_nil
  | empty | one | once | seq | altFirst | altSecond => cases hp

theorem describes_many1 (h : (many1 (one accepts)).Describes s) :
    s ≠ [] ∧ ∀ c ∈ s, accepts c = true := by
  cases h with
  | seq hs ht =>
    obtain ⟨c, rfl, hc⟩ := describes_one hs
    exact ⟨cons_ne_nil _ _, forall_mem_cons.mpr ⟨hc, describes_many ht⟩⟩

theorem Search.orElse_of_isSome {first second : Search α} {passed : Passed}
    (h : (first passed).1.isSome = true) : Search.orElse first second passed = first passed := by
  obtain ⟨a, ha⟩ := Option.isSome_iff_exists.mp h
  rw [Search.orElse]
  split
  · next heq => rw [heq]
  · next heq => rw [heq] at ha; cases ha

/-- One more round, where the body goes on in one way only. -/
theorem rounds_more {body : Continuation α → Continuation α} {k : Continuation α} {bound : List Char}
    {c : Char} {m n : Nat} {passed : Passed} (hmn : m ≠ n) (hbody : ∀ k' : Continuation α,
      (k' m rest passed).1.isSome = true → body k' n s passed = k' m rest passed)
    (hk : (rounds true body k bound m rest passed).1.isSome = true) :
    rounds true body k (c :: bound) n s passed = rounds true body k bound m rest passed := by
  have hmore := hbody (fun m rest => if m = n then k m rest else rounds true body k bound m rest)
    (by simpa [hmn] using hk)
  simp only [hmn, if_false] at hmore
  rw [rounds, if_pos rfl, Search.orElse_of_isSome] <;> rw [hmore]
  exact hk

theorem rounds_one {k : Continuation α} (bound : List Char) {n : Nat} {passed : Passed}
    (h : s.length ≤ bound.length)
    (hk : (k (n + (s.takeWhile accepts).length) (s.dropWhile accepts) passed).1.isSome = true) :
    rounds true (fun k => (one accepts).run k) k bound n s passed =
      k (n + (s.takeWhile accepts).length) (s.dropWhile accepts) passed := by
  induction bound generalizing n s with
  | nil => simp [rounds, length_eq_zero_iff.mp (Nat.le_zero.mp h)]
  | cons _ bound ih =>
    cases s with
    | nil => rfl
    | cons c s =>
      cases hc : accepts c with
      | false => simp [rounds, run, hc, Search.orElse, Search.fail]
      | true =>
        simp only [takeWhile_cons, dropWhile_cons, hc, if_true, length_cons] at hk ⊢
        rw [Nat.add_comm _ 1, ← Nat.add_assoc] at hk ⊢
        have hrest := ih (Nat.le_of_succ_le_succ h) hk
        rw [← hrest]
        exact rounds_more (Nat.succ_ne_self n) (fun k' _ => by rw [run, if_pos hc]) (by rwa [hrest])

/-- A repetition takes all it can, if what is behind can go on from there. -/
theorem run_many {k : Continuation α} {n : Nat} {passed : Passed}
    (hk : (k (n + (s.takeWhile accepts).length) (s.dropWhile accepts) passed).1.isSome = true) :
    (many (one accepts)).run k n s passed =
      k (n + (s.takeWhile accepts).length) (s.dropWhile accepts) passed :=
  rounds_one s (le_refl _) hk

theorem split?_many1 {c : Char} (hc : accepts c = true) (s : List Char) :
    (many1 (one accepts)).split? (c :: s) =
      some (c :: s.takeWhile accepts, s.dropWhile accepts) := by
  simp [split?, match?, many1, run, hc, run_many, Nat.add_comm 1, take_succ_cons,
    ← prefix_iff_eq_take.mp ( takeWhile_prefix accepts)]

end Pattern

abbrev textBranch (s : List Char) : Branch := Branch.stack [] (.text (String.ofList s))

@[simp] theorem nodes_textBranch (s : List Char) : Branch.nodes (textBranch s) = [] := by
  simp only [textBranch, Branch.stack]
  split_ifs <;> rfl

theorem reverse_textBranch (s : List Char) : (textBranch s).reverse = textBranch s := by
  simp only [textBranch, Branch.stack]
  split_ifs <;> rfl

theorem ownText_of_branches {d : Document} {x : NodeId} {s : List Char} (hb : d.branches x = [textBranch s]) :
    d.ownText x = String.ofList s := by
  rw [Document.branches] at hb
  rw [Document.ownText, Document.children, Node.children, hb]
  simp only [textBranch, Branch.stack, headD_cons]
  split_ifs with hs
  · exact hs.symm
  · simp [Branch.text]

theorem writeBranch_textBranch (w : NodeId → String) (s : List Char) :
    Document.writeBranch w (textBranch s) = String.ofList s := by
  simp only [textBranch, Branch.stack]
  split_ifs with hs
  · rw [hs]
    rfl
  · simp

theorem stack_textBranch (s t : List Char) :
    (textBranch s).stack (.text (String.ofList t)) = textBranch (s ++ t) := by
  have hemp : ∀ u : List Char, String.ofList u = "" ↔ u = [] := fun u =>
    String.ofList_eq_empty_iff
  by_cases hs : s = []
  · rw [hs]
    rfl
  · by_cases ht : t = []
    · subst ht
      simp [Branch.stack]
    · simp [Branch.stack, hemp, hs, ht, String.ofList_append]

end Stencil
