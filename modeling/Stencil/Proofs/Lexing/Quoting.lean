import Stencil.Proofs.Lexing.Progress

/-!
# Texts between quotes

In a string a backslash goes with the character behind it, whatever that is, and such pairs are read from
left to right (`decode`). A string ends at the first quote that is in no pair, so a text can stand between
quotes if it has none (`isSealed`). **A run goes through such a text up to the quote behind it, and records
what its rules make of the pairs** (`leads_sealed`).
-/

namespace Stencil

open Document List

variable {quote other : Char} {f : Char → List Char} {s : List Char}

/-- A text with its pairs replaced, where `f` says what a backslash and a character stand for. -/
def decode (f : Char → List Char) : List Char → List Char
  | '\\' :: c :: s => f c ++ decode f s
  | c :: s => c :: decode f s
  | [] => []

/-- Whether each backslash is in a pair, and each quote of the given kind too. -/
def isSealed (quote : Char) : List Char → Bool
  | '\\' :: _ :: s => isSealed quote s
  | c :: s => c != quote && c != '\\' && isSealed quote s
  | [] => true

def isBare (quote c : Char) : Bool := !(List.contains [quote, '\\'] c)

theorem isBare_iff {c : Char} : isBare quote c = true ↔ c ≠ quote ∧ c ≠ '\\' := by
  simp [isBare]

section

variable {c : Char} (hc : c ≠ '\\') (s : List Char)
include hc

theorem decode_cons : decode f (c :: s) = c :: decode f s :=
  decode.eq_2 f c s fun _ _ heq => absurd heq hc

theorem isSealed_cons : isSealed quote (c :: s) = (c != quote && isSealed quote s) := by
  rw [isSealed.eq_2 quote c s fun _ _ heq => absurd heq hc, bne_iff_ne.mpr hc, Bool.and_true]

end

theorem decode_append_of_bare {u : List Char} (hu : ∀ c ∈ u, isBare quote c = true) (s : List Char) :
    decode f (u ++ s) = u ++ decode f s ∧ isSealed quote (u ++ s) = isSealed quote s := by
  induction u with
  | nil => exact ⟨rfl, rfl⟩
  | cons c u ih =>
    obtain ⟨hc, hu⟩ := forall_mem_cons.mp hu
    obtain ⟨hquote, hslash⟩ := isBare_iff.mp hc
    rw [cons_append, decode_cons hslash, isSealed_cons hslash, (ih hu).1, (ih hu).2]
    simp [hquote]

theorem decode_of_bare {u : List Char} (hu : ∀ c ∈ u, isBare quote c = true) : decode f u = u := by
  simpa [decode] using (decode_append_of_bare (f := f) hu []).1

theorem decode_pairs (s : List Char) : decode (fun c => ['\\', c]) s = s := by
  fun_induction decode (fun c => ['\\', c]) s <;> simp_all

namespace Run

variable {σ : Type} [DecidableEq σ] {g : Grammar σ} {d : Document}

/-- A rule that moves past a text and records another. -/
def Records (rule : Rule σ) (m t : List Char) : Prop :=
  rule.actions = [.replace (String.ofList t), .shift] ∨ rule.actions = [.record, .shift] ∧ t = m

/-- The rules of a state for what is inside a string: one for pairs and one for all up to the next. -/
structure ReadsStrings (g : Grammar σ) (state : σ) (quote : Char) (f : Char → List Char) : Prop where
  pair : ∀ c rest, ∃ rule, g.next? state ('\\' :: c :: rest) = some (rule, ['\\', c]) ∧
    Records rule ['\\', c] (f c)
  bare : ∀ c rest, isBare quote c = true → ∃ rule,
    g.next? state (c :: rest) = some (rule, c :: rest.takeWhile (isBare quote)) ∧
      rule.actions = [.record, .shift]

section

variable {state : σ} {states : List σ} {x : NodeId} {us : List OpenToken} {out : Branch}
  {w rest behind : List Char} {place : Place} {offset : Nat}

theorem fires_records {rule : Rule σ} {m t : List Char} (hlive : g.Lively) (hm : m ≠ [])
    (hnext : g.next? state (m ++ rest) = some (rule, m)) (hrule : Records rule m t) :
    g.Fires (⟨state :: states, ⟨x, textBranch (w ++ t)⟩ :: us, out, place.advance m, offset + m.length,
        m.reverse ++ behind, rest⟩, d)
      (⟨state :: states, ⟨x, textBranch w⟩ :: us, out, place, offset, behind, m ++ rest⟩, d) := by
  rw [← stack_textBranch]
  refine hlive.fires (by simp [hm]) hnext ?_
  have hdrop : (m ++ rest).drop m.length = rest := drop_left
  rcases hrule with hrule | ⟨hrule, rfl⟩ <;> rw [hrule] <;> conv_rhs => rw [← hdrop]
  all_goals rfl

theorem leads_sealed (hlive : g.Lively) (hg : ReadsStrings g state quote f) (hs : isSealed quote s = true)
    (r : Run σ) (hstates : r.states = state :: states) (hopened : r.opened = ⟨x, textBranch w⟩ :: us)
    (hahead : r.ahead = s ++ quote :: rest) : ∃ place offset behind, g.Leads (r, d)
      (⟨state :: states, ⟨x, textBranch (w ++ decode f s)⟩ :: us, r.out, place, offset, behind,
        quote :: rest⟩, d) := by
  obtain ⟨_, _, out, place, offset, behind, _⟩ := r
  subst hstates hopened hahead
  induction hn : s.length using Nat.strong_induction_on generalizing s w place offset behind with
  | _ n ih =>
    subst hn
    cases s with
    | nil => exact ⟨place, offset, behind, by rw [decode, append_nil]; exact .refl⟩
    | cons c s =>
      rw [length_cons] at ih
      by_cases hc : c = '\\'
      · subst hc
        cases s with
        | nil => simp [isSealed] at hs
        | cons c s =>
          obtain ⟨rule, hnext, hrule⟩ := hg.pair c (s ++ quote :: rest)
          obtain ⟨place', offset', behind', hleads⟩ := ih s.length (by simp) (w := w ++ f c)
            (by simpa [isSealed] using hs) _ _ _ rfl
          refine ⟨place', offset', behind', ?_⟩
          rw [decode, ← append_assoc]
          exact .head (fires_records (m := ['\\', c]) hlive (cons_ne_nil _ _) hnext hrule) hleads
      · -- all up to the next pair or the quote is read in one go
        have hbare : isBare quote c = true := by
          rw [isSealed_cons hc] at hs
          exact isBare_iff.mpr ⟨by simpa using (Bool.and_eq_true_iff.mp hs).1, hc⟩
        obtain ⟨rule, hnext, hrule⟩ := hg.bare c (s ++ quote :: rest) hbare
        have hmunch : (s ++ quote :: rest).takeWhile (isBare quote) = s.takeWhile (isBare quote) := by
          rw [takeWhile_append]
          split_ifs with hall
          · rw [takeWhile_cons_of_neg (by simp [isBare]), append_nil,
              ( takeWhile_prefix (isBare quote)).eq_of_length hall]
          · rfl
        rw [hmunch] at hnext
        have hsplit : c :: s = (c :: s.takeWhile (isBare quote)) ++ s.dropWhile (isBare quote) := by
          rw [cons_append, takeWhile_append_dropWhile]
        have hu : ∀ e ∈ c :: s.takeWhile (isBare quote), isBare quote e = true :=
          forall_mem_cons.mpr ⟨hbare, fun e he => mem_takeWhile_imp he⟩
        have hlen : (s.dropWhile (isBare quote)).length ≤ s.length := (dropWhile_suffix _).length_le
        rw [← cons_append, hsplit, append_assoc] at hnext
        rw [hsplit] at hs ⊢
        have hne : c :: s.takeWhile (isBare quote) ≠ [] := cons_ne_nil _ _
        generalize c :: s.takeWhile (isBare quote) = u at hnext hu hs hne
        generalize s.dropWhile (isBare quote) = t at hnext hlen hs
        obtain ⟨hdecode, hsealed⟩ := decode_append_of_bare (f := f) hu t
        obtain ⟨place', offset', behind', hleads⟩ := ih t.length (by omega) (w := w ++ u) (hsealed ▸ hs)
          _ _ _ rfl
        refine ⟨place', offset', behind', ?_⟩
        rw [hdecode, ← append_assoc w, append_assoc]
        exact .head (fires_records hlive hne hnext (.inr ⟨hrule, rfl⟩)) hleads

end

end Run

end Stencil
