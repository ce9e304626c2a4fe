import Stencil.Proofs.Lexing.Quoting
import Stencil.Proofs.Script.Brackets

/-!
# String literals

Of a string only the backslashes in front of the quote that is not its own are left out (`Quoted`). What
is left is read as one string again, with the same text, since each quote of its own is still in a pair.
And **a string that is written stands for what it stands for in the source** (`literals_keep_value`), with
any meaning of the pairs in which a backslash and that quote stand for the quote.
-/

namespace Stencil

open Document List Pattern

namespace Script

variable {d a : Document} {path source : String} {x : NodeId} {k : Kind} {state : LexState}
  {quote other : Char} {f : Char → List Char} {s t : List Char}

def keptPair (other c : Char) : List Char := if c = other then [other] else ['\\', c]

theorem Quotes.ne (h : Quotes k quote other) : other ≠ quote ∧ other ≠ '\\' := by
  cases h <;> decide

theorem Quotes.unique {quote' other' : Char} (h : Quotes k quote other) (h' : Quotes k quote' other') :
    quote = quote' ∧ other = other' := by
  cases h <;> cases h' <;> exact ⟨rfl, rfl⟩

namespace Quoted

theorem append (h : Quoted quote other s t) (rest : List Char) :
    decode f (s ++ rest) = decode f s ++ decode f rest ∧
      isSealed quote (s ++ rest) = isSealed quote rest := by
  -- a pair goes to the front of the rest
  have hpair : ∀ {s : List Char}, (∀ rest, decode f (s ++ rest) = decode f s ++ decode f rest ∧
      isSealed quote (s ++ rest) = isSealed quote rest) → ∀ c rest,
      decode f (s ++ ['\\', c] ++ rest) = decode f (s ++ ['\\', c]) ++ decode f rest ∧
        isSealed quote (s ++ ['\\', c] ++ rest) = isSealed quote rest := by
    intro s ih c rest
    rw [append_assoc, (ih _).1, (ih _).2, (ih _).1]
    simp [decode, isSealed]
  induction h generalizing rest with
  | nil => exact ⟨rfl, rfl⟩
  | other _ ih => exact hpair ih _ rest
  | escaped _ _ ih => exact hpair ih _ rest
  | @plain s t u _ hu ih =>
    have hbare : ∀ c ∈ u, isBare quote c = true := fun c hc => isBare_iff.mpr (hu c hc)
    obtain ⟨hdecode, hsealed⟩ := decode_append_of_bare (f := f) hbare rest
    exact ⟨by rw [append_assoc, (ih _).1, (ih u).1, hdecode, decode_of_bare hbare, append_assoc],
      by rw [append_assoc, (ih _).2, hsealed]⟩

theorem isSealed_written (h : Quoted quote other s t) : isSealed quote s = true := by
  simpa [isSealed] using (h.append (f := fun _ => []) []).2

theorem decode_keptPair (h : Quoted quote other s t) : decode (keptPair other) s = t := by
  induction h with
  | nil => rfl
  | other h ih => rw [(h.append _).1, ih, decode, keptPair, if_pos rfl, decode, append_nil]
  | escaped h hc ih => rw [(h.append _).1, ih, decode, keptPair, if_neg hc, decode, append_nil]
  | plain h hu ih => rw [(h.append _).1, ih, decode_of_bare fun c hc => isBare_iff.mpr (hu c hc)]

variable (h : Quoted quote other s t) (hq : Quotes k quote other)
include h hq

theorem kept : Quoted quote other t t := by
  induction h with
  | nil => exact .nil
  | other _ ih => exact ih.plain (by simpa using hq.ne)
  | escaped _ hc ih => exact ih.escaped hc
  | plain _ hu ih => exact ih.plain hu

theorem decode_kept (hf : f other = [other]) : decode f t = decode f s := by
  induction h with
  | nil => rfl
  | other h ih =>
    rw [((h.kept hq).append _).1, (h.append _).1, ih, decode_cons hq.ne.2]
    simp [decode, hf]
  | escaped h _ ih => rw [((h.kept hq).append _).1, (h.append _).1, ih]
  | plain h _ ih => rw [((h.kept hq).append _).1, (h.append _).1, ih]

end Quoted

section Rules

variable (hk : state = .doubleQuoted ∧ k = .doubleQuoted ∨ state = .singleQuoted ∧ k = .singleQuoted)
  (hq : Quotes k quote other) (rest : List Char)
include hk hq

theorem next?_quote : grammar.next? .code (quote :: rest) =
    some (.on (lit (String.singleton quote)) [.push state, .start k, .shift], [quote]) := by
  have hblank : Text.isBlank quote = false := by cases hq <;> decide
  rcases hk with ⟨rfl, rfl⟩ | ⟨rfl, rfl⟩ <;> cases hq <;>
    simp [Grammar.next?, grammar, rules, Rule.fire?, Rule.on, Rule.admits, split?, match?, lit, Pattern.all, run,
      many, blank, oneOf, rounds, Search.orElse, Search.fail, hblank, openBracket, closeBracket]

theorem next?_unquote : grammar.next? state (quote :: rest) =
    some (.on (lit (String.singleton quote)) [.pop, .shift, .stop], [quote]) := by
  rcases hk with ⟨rfl, rfl⟩ | ⟨rfl, rfl⟩ <;> cases hq <;>
    simp [Grammar.next?, grammar, rules, Rule.fire?, Rule.on, Rule.admits, split?, match?, lit, Pattern.all, run]

theorem next?_bare {c : Char} (hc : isBare quote c = true) : grammar.next? state (c :: rest) =
    some (.on (many1 (noneOf (String.ofList [quote, '\\']))) [.record, .shift],
      c :: rest.takeWhile (isBare quote)) := by
  obtain ⟨hc1, hc2⟩ := isBare_iff.mp hc
  rcases hk with ⟨rfl, rfl⟩ | ⟨rfl, rfl⟩ <;> cases hq
  on_goal 1 => have hsplit : (many1 (noneOf "\"\\")).split? (c :: rest) = _ := split?_many1 hc rest
  on_goal 2 => have hsplit : (many1 (noneOf "'\\")).split? (c :: rest) = _ := split?_many1 hc rest
  all_goals
    simp only [Grammar.next?, grammar, rules, findSome?_cons, Rule.fire?, Rule.on, hsplit]
    simp [Rule.admits, split?, match?, lit, Pattern.all, run, Script.escaped, Pattern.any, Search.fail,
      hc1, hc2]
    rfl

omit rest in
theorem readsStrings : Run.ReadsStrings grammar state quote (keptPair other) where
  pair c rest := by
    refine ⟨_, next?_pair hk hq c rest, ?_⟩
    rw [keptPair]
    split_ifs
    · exact .inl rfl
    · exact .inr ⟨rfl, rfl⟩
  bare _ rest hc := ⟨_, next?_bare hk hq rest hc, rfl⟩

end Rules

def inQuotes (quote : Char) (body : List Char) : List Char := quote :: (body ++ [quote])

def literalScript (path : String) (k : Kind) (top body : Branch) : Document :=
  ⟨#[{ kind := .root, place := .startOf path, branches := [top] },
     { kind := k, place := .startOf path, branches := [body] }]⟩

theorem tokenize_inQuotes (path : String) (hq : Quotes k quote other) (h : isSealed quote s = true) :
    grammar.tokenize [] [] root (ofSource path (String.ofList (inQuotes quote s))) =
      .ok () (literalScript path k [.node 1] (textBranch (decode (keptPair other) s))) := by
  obtain ⟨state, hk⟩ : ∃ state, state = LexState.doubleQuoted ∧ k = .doubleQuoted ∨
      state = .singleQuoted ∧ k = .singleQuoted := by
    cases hq
    exacts [⟨_, .inl ⟨rfl, rfl⟩⟩, ⟨_, .inr ⟨rfl, rfl⟩⟩]
  obtain ⟨place, offset, behind, hleads⟩ := Run.leads_sealed (d := literalScript path k [] [])
    grammar_lively (readsStrings hk hq) h
    ⟨[state], [⟨1, []⟩], [], (Place.startOf path).advance [quote], 1, [quote], _⟩ rfl (w := []) rfl rfl
  have hend := hleads.tail (grammar_lively.fires (cons_ne_nil _ _) (next?_unquote hk hq []) rfl)
  rw [reverse_textBranch] at hend
  have hread : grammar.tokenize [] [] root (ofSource path (String.ofList (inQuotes quote s))) =
      .ok () _ := grammar_lively.tokenize (by
    simp only [String.toList_ofList, Grammar.setBranch_ofSource]
    exact .head (grammar_lively.fires (cons_ne_nil _ _) (next?_quote hk hq _) rfl) hend) rfl
    (fun _ hs => absurd hs not_mem_nil) rfl
  exact hread

theorem outputOf_eq_inQuotes (hlt : x < a.size) (hq : Quotes (a.kind x) quote other)
    (hp : (a.node x).payload = .none) (hb : a.branches x = [textBranch s]) :
    a.outputOf x = String.ofList (inQuotes quote s) := by
  obtain ⟨n, hn⟩ := Nat.exists_eq_add_of_lt hlt
  have hmanner : ∀ w, Output.manner a w x = none := fun w => by
    rw [Output.manner]
    cases hq' : a.kind x <;> rw [hq'] at hq <;> cases hq <;> rfl
  rw [outputOf, render, hn, writeNode, hmanner, Option.getD_none, write_of_none hp, writeBranches, hb]
  cases hq' : a.kind x <;> rw [hq'] at hq <;> cases hq <;>
    simp [writeBranch_textBranch, Kind.delimiters, inQuotes, String.ofList_append, String.ofList_cons,
      String.append_assoc]

theorem IsRead.node_compiled (h : IsRead path source d) (hx : Reaches d.refs root x)
    (hq : Quotes (d.kind x) quote other) {ds : List Declaration}
    (hds : declarations (compress d root) root = .ok ds) :
    x < (separateBraces (newScript (compress d root) ds root) root).size ∧
      (separateBraces (newScript (compress d root) ds root) root).node x = d.node x := by
  have hkind : d.kind x ∉ [.root, .scriptSpace, .operator, .identifier, .scope] := by
    generalize d.kind x = k at hq
    cases hq <;> decide
  simp only [mem_cons, not_or] at hkind
  obtain ⟨hroot, hspace, hoperator, hidentifier, hscope, -⟩ := hkind
  have hne : x ≠ root := by rintro rfl; exact hroot h.kind_eq
  have hcompress := (compress_pressed h.isSplit).other x hx hne hspace hoperator
  have hrename : (newScript (compress d root) ds root).node x = d.node x := by
    rw [newScript_of_ne hds h.owner_compress (by rwa [kind, hcompress]), hcompress]
  obtain ⟨_, -, hsep, -⟩ := exists_sourceOf_eq hds h.owner_compress fun y _ => h.naming?_compress y
  have hlt : x < (newScript (compress d root) ds root).size := by
    rw [size_newScript, (compress_rewrites d).thinned.size_eq]
    exact h.uniqueOwner.lt_size hx
  rw [← hrename]
  exact ⟨hlt.trans_le hsep.size_le, (hsep.other x hlt (by rwa [kind, hrename])).1⟩

/-- **Strings keep their value.** A string of a script stands in its source between quotes. What is kept of
its text is written between the same quotes, also in the compiled script, and it is read as one string with
the same text again. With each meaning of pairs that takes a backslash and the other quote for the quote, it
stands for what the text in the source stands for. -/
theorem literals_keep_value (h : grammar.tokenize [] [] root (ofSource path source) = .ok () d)
    (hx : Reaches d.refs root x) (hq : Quotes (d.kind x) quote other) : ∃ before written kept after,
    source.toList = before ++ (inQuotes quote written ++ after) ∧
    d.place x = (Place.startOf path).advance before ∧
    Quoted quote other written kept ∧ Quoted quote other kept kept ∧
    d.outputOf x = String.ofList (inQuotes quote kept) ∧
    (∀ a, process [] [] root (ofSource path source) = .ok () a → a.outputOf x = d.outputOf x) ∧
    (∀ path, grammar.tokenize [] [] root (ofSource path (String.ofList (inQuotes quote kept))) =
      .ok () (literalScript path (d.kind x) [.node 1] (textBranch kept))) ∧
    ∀ f : Char → List Char, f other = [other] → decode f kept = decode f written := by
  have hd := isRead_of_tokenize h
  have hne : x ≠ root := by
    rintro rfl
    rw [hd.kind_eq] at hq
    cases hq
  have hlt := hd.uniqueOwner.lt_size hx
  obtain ⟨before, t, after, hsource, hread⟩ := hd.token hx hne
  cases hread with
  | word hw =>
    generalize d.kind x = k at hq hw
    cases hq <;> cases hw
  | bracketed ho =>
    have hk := ho.bracketed
    generalize d.kind x = k at hq hk
    cases hq <;> cases hk
  | @quoted _ written kept s t quote' other' _ _ hq' hquoted hs hplace hb hrest =>
    cases hrest
    obtain ⟨rfl, rfl⟩ := hq.unique hq'
    have hout := outputOf_eq_inQuotes hlt hq (hd.payload_eq x) hb
    refine ⟨before, written, kept, after, ?_, hplace, hquoted, hquoted.kept hq, hout, fun a ha => ?_,
      fun path' => ?_, fun f hf => hquoted.decode_kept hq hf⟩
    · rw [hsource, hs, append_nil, inQuotes]
    · obtain ⟨d', ds, htok, hds, rfl⟩ := process_eq_ok ha
      cases h.symm.trans htok
      obtain ⟨hlt', hnode⟩ := hd.node_compiled hx hq hds
      rw [hout]
      refine outputOf_eq_inQuotes hlt' (by rwa [kind, hnode]) ?_ (by rwa [branches, hnode])
      rw [hnode, hd.payload_eq]
    · have hkept := hquoted.kept hq
      rw [tokenize_inQuotes path' hq hkept.isSealed_written, hkept.decode_keptPair]

/-- In `"it\'s"` the apostrophe needs no backslash. -/
theorem literals_keep_value_apostrophe : ∃ d written kept,
    grammar.tokenize [] [] root (ofSource "" "\"it\\'s\"") = .ok () d ∧
      Quotes (d.kind 1) '"' '\'' ∧ Quoted '"' '\'' written kept ∧
      d.outputOf 1 = String.ofList (inQuotes '"' kept) := by
  have htok : grammar.tokenize [] [] root (ofSource "" "\"it\\'s\"") = .ok () _ :=
    tokenize_inQuotes "" .double (s := ['i', 't', '\\', '\'', 's']) (by decide)
  obtain ⟨_, written, kept, _, _, _, hquoted, _, hout, _⟩ :=
    literals_keep_value htok (x := 1) (.child (by decide)) .double
  exact ⟨_, written, kept, htok, .double, hquoted, hout⟩

end Script

end Stencil
