import Stencil.Proofs.Script.Seams

/-!
# Line breaks of a compiled script

Where a statement has no semicolon, the line break behind it ends it, so a line break must not go.
Of the blanks between two tokens stays what `gap` says, and that is a line break if there was one
outside of comments, unless one of the tokens is an operator other than `+` and `-`.

So **behind a token that ends an expression a line break goes exactly if such an operator comes next**
(`line_breaks_between_tokens`): those in front of names, numbers, strings, regular expressions and
keywords stay, and those in front of `!` and `~`, which start a new statement too, are lost.
-/

namespace Stencil

open List

variable {k : Kind}

namespace Script

open Document

variable {d : Document} {x y : NodeId} {run : List NodeId}

def isOperand : Kind → Bool
  | .identifier | .number | .doubleQuoted | .singleQuoted | .regex => true
  | k => isBracketed k

/-- Tokens, operators left out, that do not continue an expression in front of them. -/
def startsAnew : Kind → Bool
  | .identifier | .number | .doubleQuoted | .singleQuoted | .regex | .keyword => true
  | _ => false

theorem absorbs_eq_false_iff : absorbsLineBreak d (.node x) = false ↔
    (d.kind x = .operator → operatorText d x = "+" ∨ operatorText d x = "-") := by
  simp only [absorbsLineBreak, Bool.and_eq_false_iff, Bool.not_eq_false', contains_eq_mem,
    decide_eq_true_eq, mem_cons, not_mem_nil, or_false, beq_eq_false_iff_ne]
  exact imp_iff_not_or.symm

theorem ne_operator_of_isOperand (h : isOperand k = true) : k ≠ .operator := by
  rintro rfl
  cases h

theorem ne_operator_of_startsAnew (h : startsAnew k = true) : k ≠ .operator := by
  rintro rfl
  cases h

/-- **What is left of a line break** between two tokens. -/
theorem mem_gap_iff : '\n' ∈ (gap d x run y).toList ↔ (∃ z ∈ run, hasLineBreak d z = true) ∧
    absorbsLineBreak d (.node x) = false ∧ absorbsLineBreak d (.node y) = false := by
  rw [← any_eq_true, gap]
  split_ifs with hrun
  · simp [hrun]
  · cases hbreak : run.any (hasLineBreak d)
    · -- at most a space is left
      refine iff_of_false (fun hmem => ?_) (by simp)
      simp only [keptBlank, Bool.false_eq_true, if_false] at hmem
      split_ifs at hmem <;> simp at hmem
    · simp only [keptBlank, if_true, true_and]
      split_ifs with habsorbs
      · refine iff_of_false (by simp) ?_
        rintro ⟨hx, hy⟩
        rw [hx, hy] at habsorbs
        cases habsorbs
      · rw [Bool.or_eq_true, not_or, Bool.not_eq_true, Bool.not_eq_true] at habsorbs
        exact iff_of_true (by simp) habsorbs

/-- **Where line breaks stay.** Let a token that ends an expression be followed by another one in its
list. The compiled script has a line break between the two exactly if the source has one outside of
comments and the second token is no operator, or one of `+` and `-`. -/
theorem line_breaks_between_tokens {path source out : String}
    (h : language.compileSource path source = .ok out) :
    ∃ d a, grammar.tokenize [] [] root (ofSource path source) = .ok () d ∧
      process [] [] root (ofSource path source) = .ok () a ∧ a.output = out ∧
      ∀ x run y, Follows d x run y → isOperand (d.kind x) = true →
        ∃ s t between, ReadApart d path source x run y s t ∧ WrittenApart a x between y ∧
          ('\n' ∈ between.toList ↔ (∃ z ∈ run, hasLineBreak d z = true) ∧
            (d.kind y = .operator → operatorText d y = "+" ∨ operatorText d y = "-")) ∧
          (startsAnew (d.kind y) = true →
            ('\n' ∈ between.toList ↔ ∃ z ∈ run, hasLineBreak d z = true)) := by
  obtain ⟨a, hprocess, hout⟩ := compileSource_eq_ok.mp h
  obtain ⟨d, ds, htokens, hds, rfl⟩ := process_eq_ok hprocess
  have hd := isRead_of_tokenize htokens
  refine ⟨d, _, htokens, hprocess, hout, fun x run y hf hends => ?_⟩
  obtain ⟨s, t, hread⟩ := hf.readApart hd
  have hx : absorbsLineBreak d (.node x) = false :=
    absorbs_eq_false_iff.mpr fun hk => absurd hk (ne_operator_of_isOperand hends)
  have hmem : '\n' ∈ (gap d x run y).toList ↔ (∃ z ∈ run, hasLineBreak d z = true) ∧
      (d.kind y = .operator → operatorText d y = "+" ∨ operatorText d y = "-") := by
    rw [mem_gap_iff, and_iff_right hx, absorbs_eq_false_iff]
  refine ⟨s, t, gap d x run y, hread, hf.writtenApart hd (compiled_of_isRead hd hds), hmem,
    fun hanew => hmem.trans (and_iff_left fun hk => ?_)⟩
  exact absurd hk (ne_operator_of_startsAnew hanew)

/-- A line break in front of a negation is lost. -/
theorem line_breaks_between_tokens_negation : ∃ out d a between,
    language.compileSource "s" "a\n!b" = .ok out ∧ a.output = out ∧ Follows d 1 [2] 3 ∧
      d.kind 1 = .identifier ∧ d.ownText 2 = "\n" ∧ operatorText d 3 = "!" ∧
      WrittenApart a 1 between 3 ∧ '\n' ∉ between.toList := by
  have hok : succeeds (process [] [] root) (ofSource "s" "a\n!b") (fun _ _ => true) = true := by
    decide +kernel
  have htok : succeeds (grammar.tokenize [] [] root) (ofSource "s" "a\n!b") (fun _ d =>
      decide (d.childNodes root = [1, 2, 3, 4] ∧ d.kind 1 = .identifier ∧ d.kind 2 = .scriptSpace ∧
        d.kind 3 = .operator ∧ d.ownText 2 = "\n" ∧ operatorText d 3 = "!")) = true := by
    decide +kernel
  obtain ⟨_, a, ha, -⟩ := of_succeeds hok
  obtain ⟨_, d, hd, hcheck⟩ := of_succeeds htok
  obtain ⟨hchildren, hk, hspace, hop, hbreak, hnot⟩ := of_decide_eq_true hcheck
  have hcompiled : language.compileSource "s" "a\n!b" = .ok a.output :=
    compileSource_eq_ok.mpr ⟨a, ha, rfl⟩
  obtain ⟨d', a', hd', ha', hout, hbreaks⟩ := line_breaks_between_tokens hcompiled
  rw [hd] at hd'
  cases hd'
  have hf : Follows d 1 [2] 3 :=
    ⟨⟨root, [], [4], .refl, hchildren⟩, by rw [hk]; decide, by rw [hop]; decide, by simpa using hspace⟩
  obtain ⟨s, t, between, -, hwritten, hiff, -⟩ := hbreaks 1 [2] 3 hf (by rw [hk]; rfl)
  refine ⟨_, d, a', between, hcompiled, hout, hf, hk, hbreak, hnot, hwritten, fun hmem => ?_⟩
  have hsign := (hiff.mp hmem).2 hop
  rw [hnot] at hsign
  exact absurd hsign (by decide)

end Script

end Stencil
