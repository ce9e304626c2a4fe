import Stencil.Proofs.Lexing.Quoting
import Stencil.Proofs.Script.Blanks
import Stencil.Stylesheet.Language

/-!
# Quoted urls

A `url()` value is written between single quotes, with a backslash in front of quotes and backslashes.
Such a value is read as one token, whatever characters it has, and when the backslashes are taken away
it is the value that was written, without the blanks at its ends. So **a compiled value is compiled to
itself** (`compileSource_urlText`).
-/

namespace Stencil

open Document List

variable {d d' : Document} {c : Char} {v : List Char}

namespace Stylesheet

def quoted (v : List Char) : List Char :=
  v.flatMap fun c => if c == '\'' || c == '\\' then ['\\', c] else [c]

theorem quoted_cons_of_bare (hc : isBare '\'' c = true) (v : List Char) : quoted (c :: v) = c :: quoted v := by
  rw [quoted, flatMap_cons, if_neg (by simpa [isBare] using hc), singleton_append, quoted]

theorem quoted_cons_of_not_bare (hc : isBare '\'' c = false) (v : List Char) :
    quoted (c :: v) = '\\' :: c :: quoted v := by
  rw [quoted, flatMap_cons, if_pos (by simpa [isBare, or_iff_not_imp_left] using hc), quoted]
  rfl

theorem length_le_quoted (v : List Char) : v.length ≤ (quoted v).length := by
  induction v with
  | nil => exact le_refl _
  | cons c v ih =>
    cases hc : isBare '\'' c <;> simp [quoted_cons_of_bare, quoted_cons_of_not_bare, hc] <;> omega

theorem isSealed_quoted (v : List Char) : isSealed '\'' (quoted v) = true := by
  induction v with
  | nil => rfl
  | cons c v ih =>
    cases hc : isBare '\'' c with
    | true =>
      obtain ⟨hquote, hslash⟩ := isBare_iff.mp hc
      rw [quoted_cons_of_bare hc, isSealed_cons hslash, ih, Bool.and_true]
      exact bne_iff_ne.mpr hquote
    | false => rw [quoted_cons_of_not_bare hc, isSealed, ih]

theorem unescape_quoted (v : List Char) : unescape (quoted v) = v := by
  induction v with
  | nil => rfl
  | cons c v ih =>
    cases hc : isBare '\'' c with
    | true =>
      have hne : c ≠ '\\' := by rintro rfl; cases hc
      rw [quoted_cons_of_bare hc, unescape.eq_2 _ _ (by simp [hne]), ih]
    | false =>
      have hc' : c ≠ '\n' := by rintro rfl; cases hc
      rw [quoted_cons_of_not_bare hc, unescape, if_neg hc', ih]

section Rules

variable (rest : List Char)

theorem next?_quote : grammar.next? .urlSingleQuoted ('\'' :: rest) =
    some (.on (.lit "'") [.shift, .pop], ['\'']) := by
  simp [Grammar.next?, grammar, rules, Rule.fire?, Rule.on, Rule.admits, Pattern.split?, Pattern.match?,
    Pattern.lit, Pattern.all, Pattern.run]

theorem next?_escaped (c : Char) : grammar.next? .urlSingleQuoted ('\\' :: c :: rest) =
    some (.on escaped [.record, .shift], ['\\', c]) := by
  simp [Grammar.next?, grammar, rules, Rule.fire?, Rule.on, Rule.admits, Pattern.split?, Pattern.match?,
    Pattern.lit, Pattern.all, Pattern.run, escaped, Pattern.any, Pattern.Search.fail]

theorem next?_bare (hc : isBare '\'' c = true) : grammar.next? .urlSingleQuoted (c :: rest) =
    some (.on (.many1 (.noneOf "'\\")) [.record, .shift], c :: rest.takeWhile (isBare '\'')) := by
  have hsplit : (Pattern.many1 (.noneOf "'\\")).split? (c :: rest) = _ := Pattern.split?_many1 hc rest
  obtain ⟨hc1, hc2⟩ := isBare_iff.mp hc
  simp only [Grammar.next?, grammar, rules, findSome?_cons, Rule.fire?, Rule.on, hsplit]
  simp [Rule.admits, Pattern.split?, Pattern.match?, Pattern.lit, Pattern.all, Pattern.run, escaped,
    Pattern.any, Pattern.Search.fail, hc1, hc2]
  rfl

theorem next?_url : grammar.next? .rules ('u' :: 'r' :: 'l' :: '(' :: rest) =
    some (.on (.lit "url(") [.shift, .start .cssUrl, .push .url], ['u', 'r', 'l', '(']) := by
  have hblank : Text.isBlank 'u' = false := by decide
  simp [Grammar.next?, grammar, rules, Rule.fire?, Rule.on, Rule.admits, Pattern.split?, Pattern.match?,
    Pattern.lit, Pattern.all, Pattern.run, Pattern.first, Pattern.many, Pattern.blank, Pattern.oneOf,
    Pattern.rounds, Pattern.Search.orElse, Pattern.Search.fail, hblank]

theorem next?_begin : grammar.next? .url ('\'' :: rest) =
    some (.on (.lit "'") [.push .urlSingleQuoted, .shift], ['\'']) := by
  simp [Grammar.next?, grammar, rules, Rule.fire?, Rule.on, Rule.admits, Pattern.split?, Pattern.match?,
    Pattern.lit, Pattern.all, Pattern.run, Pattern.Search.fail]

theorem next?_end : grammar.next? .url (')' :: rest) =
    some (.on (.lit ")") [.shift, .pop, .stop], [')']) := by
  simp [Grammar.next?, grammar, rules, Rule.fire?, Rule.on, Rule.admits, Pattern.split?, Pattern.match?,
    Pattern.lit, Pattern.all, Pattern.run, Pattern.Search.fail, Pattern.many1, Pattern.noneOf]

end Rules

theorem readsStrings : Run.ReadsStrings grammar .urlSingleQuoted '\'' fun c => ['\\', c] where
  pair c rest := ⟨_, next?_escaped rest c, .inr ⟨rfl, rfl⟩⟩
  bare _ rest hc := ⟨_, next?_bare rest hc, rfl⟩

theorem leads_value {behind : List Char} {out : Branch} {place : Place} {offset : Nat} {x : NodeId} :
    ∃ r' : Run LexState, grammar.Leads
      (⟨[.urlSingleQuoted, .url], [⟨x, []⟩], out, place, offset, behind, quoted v ++ ['\'', ')']⟩, d)
      (r', d.setBranch x 0 (textBranch (quoted v))) ∧
      r'.ahead = [] ∧ r'.states = [] ∧ r'.opened = [] ∧ r'.out = out.stack (.node x) := by
  obtain ⟨place', offset', behind', hleads⟩ := Run.leads_sealed (d := d) grammar_lively readsStrings
    (isSealed_quoted v) ⟨[.urlSingleQuoted, .url], [⟨x, []⟩], out, place, offset, behind, _⟩ rfl
    (w := []) rfl rfl
  rw [decode_pairs, nil_append] at hleads
  have hend := (hleads.tail (grammar_lively.fires (cons_ne_nil _ _) (next?_quote _) rfl)).tail
    (grammar_lively.fires (cons_ne_nil _ _) (next?_end []) rfl)
  rw [reverse_textBranch] at hend
  exact ⟨_, hend, rfl, rfl, rfl, rfl⟩

def urlSheet (path : String) (top value : Branch) : Document :=
  ⟨#[{ kind := .root, place := .startOf path, branches := [top] },
     { kind := .cssUrl, place := (Place.startOf path).advance ['u', 'r', 'l', '('], branches := [value] }]⟩

def urlText (v : String) : String := "url('" ++ Output.escapeUrl v ++ "')"

theorem toList_urlText (v : String) :
    (urlText v).toList = 'u' :: 'r' :: 'l' :: '(' :: '\'' :: (quoted v.toList ++ ['\'', ')']) := by
  simp [urlText, Output.escapeUrl, quoted]

variable (path : String)

theorem tokenize_urlText (v : String) : grammar.tokenize [] [] root (ofSource path (urlText v)) =
    .ok () (urlSheet path [.node 1] (textBranch (quoted v.toList))) := by
  obtain ⟨r, hleads, hahead, hstates, hopened, hout⟩ :=
    @leads_value (urlSheet path [] []) v.toList ['\'', '(', 'l', 'r', 'u'] []
      (((Place.startOf path).advance ['u', 'r', 'l', '(']).advance ['\'']) 5 1
  have h : grammar.tokenize [] [] root (ofSource path (urlText v)) = .ok () _ := grammar_lively.tokenize (by
    rw [toList_urlText, Grammar.setBranch_ofSource]
    exact .head (grammar_lively.fires (cons_ne_nil _ _) (next?_url _) rfl)
      (.head (grammar_lively.fires (cons_ne_nil _ _) (next?_begin _) rfl) hleads)) hahead (by simp [hstates]) hopened
  rwa [hout] at h

def IsValue (b : Branch) : Prop := b = [] ∨ ∃ s, b = [.text s]

theorem isValue_textBranch (s : List Char) : IsValue (textBranch s) := by
  simp only [textBranch, Branch.stack]
  split_ifs
  · exact .inl rfl
  · exact .inr ⟨_, rfl⟩

variable {b : Branch}

theorem normalizeUrls_urlSheet (hb : IsValue b) : normalizeUrls none root (urlSheet path [.node 1] b) =
    urlSheet path [.node 1] (normalizeValue none b) := by
  have hurls : (urlSheet path [.node 1] b).descendants root [.cssUrl] [] = [1] := by
    rcases hb with rfl | ⟨s, rfl⟩ <;> rfl
  rw [normalizeUrls, hurls]
  rfl

theorem compress_urlSheet (b : Branch) :
    compress (urlSheet path [.node 1] b) root = urlSheet path [.node 1] b := rfl

theorem normalizeValue_quoted (v : String) :
    (normalizeValue none (textBranch (quoted v.toList))).text = Text.trim v ∧
      IsValue (normalizeValue none (textBranch (quoted v.toList))) := by
  by_cases hv : quoted v.toList = []
  · have hemp : v = "" := by
      have hle := length_le_quoted v.toList
      rw [hv] at hle
      exact String.toList_eq_nil_iff.mp (length_eq_zero_iff.mp (Nat.le_zero.mp hle))
    rw [hemp]
    exact ⟨rfl, .inl rfl⟩
  · have hbranch : textBranch (quoted v.toList) = [.text (String.ofList (quoted v.toList))] := by
      simp [textBranch, Branch.stack, hv]
    rw [hbranch]
    simp [normalizeValue, mapText, mapHead, mapLast, unescape_quoted, Branch.text, Text.trim,
      Text.trimStart, Text.trimEnd, IsValue]

theorem output_urlSheet (hb : IsValue b) : (urlSheet path [.node 1] b).output = urlText b.text := by
  rcases hb with rfl | ⟨s, rfl⟩ <;>
    simp [output, outputOf, render, writeNode, Output.manner, kind, urlSheet, size, node, root,
      Kind.isTemplateBlock, Kind.templateBlocks, writeDefault, writeBranches, branches, Kind.delimiters,
      Output.url, children, Node.children, urlText, writeBranch, Branch.text, Output.escapeUrl]

/-- **Values of `url()` decode to themselves.** A written value is read as one token, and it stands for what
was written, without the blanks at its ends. Compiled again it is the same. -/
theorem compileSource_urlText (path v : String) :
    (∃ value, grammar.tokenize [] [] root (ofSource path (urlText v)) =
        .ok () (urlSheet path [.node 1] value) ∧
      ((normalizeUrls none root (urlSheet path [.node 1] value)).children 1).text = Text.trim v) ∧
    (language none).compileSource path (urlText v) = .ok (urlText (Text.trim v)) ∧
    (language none).compileSource path (urlText (Text.trim v)) = .ok (urlText (Text.trim v)) := by
  have hcompile : ∀ v, (language none).compileSource path (urlText v) = .ok (urlText (Text.trim v)) := by
    intro v
    obtain ⟨htext, hvalue⟩ := normalizeValue_quoted v
    have hprocess : (language none).process [] [] root (ofSource path (urlText v)) =
        .ok () (urlSheet path [.node 1] (normalizeValue none (textBranch (quoted v.toList)))) := by
      refine bind_eq_ok.mpr ⟨_, _, tokenize_urlText path v, congrArg (EStateM.Result.ok ()) ?_⟩
      beta_reduce
      rw [normalizeUrls_urlSheet path (isValue_textBranch _), compress_urlSheet]
    rw [Language.compileSource, hprocess, ← htext]
    exact congrArg Except.ok (output_urlSheet path hvalue)
  refine ⟨⟨_, tokenize_urlText path v, ?_⟩, hcompile v, ?_⟩
  · rw [normalizeUrls_urlSheet path (isValue_textBranch _), ← (normalizeValue_quoted v).1]
    rfl
  · rw [hcompile, Text.trim_trim]

end Stylesheet

end Stencil
