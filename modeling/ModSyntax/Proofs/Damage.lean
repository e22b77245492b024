import ModSyntax.Proofs.MissingSemicolon
import ModSyntax.Proofs.Reading.Holes
import ModSyntax.Proofs.Reading.Orderly
import ModSyntax.Proofs.Truthfulness

/-!
# Damage to a statement

A statement of a sound module is replaced by other tokens. If these neither part, close nor nest
statements, the damage stays in its place: the module around it is parsed as before, and each
diagnostic is about one of these tokens or the one behind them (`parseTokens_debris`).

The same holds of tokens that nest statements if each `IF` and `WHILE` of them begins a statement
behind whole ones, and has a sound condition, or else debris alone in its body and behind it
(`parseTokens_orderly`). One that is skipped with the debris around it leaves its `END` behind, which
closes the wrong construct (`parseTokens_skipped_if`).
-/

namespace ModSyntax

open ModSyntax.Parser (thenEnd sequenceEnd)

/-! ## Words without an end of input -/

theorem Derives.kind_ne_eof {p : Phrase} {w : List Symbol} {t : p.Tree} (h : Derives p w t) :
    ∀ s ∈ w, s.kind ≠ .eof := by
  induction h with
  | compare op | signed op | moreTerms op | moreFactors op =>
    have hop : op.kind ≠ .eof := by cases op <;> decide
    simp_all [or_imp]
  | _ => simp_all [or_imp]

theorem Debris.kind_ne_eof {closers : List Kind} {word : List Symbol} (h : Debris closers word) :
    ∀ s ∈ word, s.kind ≠ .eof := fun s hs hk => h s hs (by simp [hk])

theorem Headed.kind_ne_eof {keyword : Kind} {word v : List Symbol} (h : Headed keyword word v)
    (hkey : keyword ≠ .eof) (hv : ∀ s ∈ v, s.kind ≠ .eof) : ∀ s ∈ word, s.kind ≠ .eof := by
  cases h with
  | present he =>
    exact List.forall_mem_append.2 ⟨he.kind_ne_eof, List.forall_mem_cons.2 ⟨hkey, hv⟩⟩
  | missing he => exact List.forall_mem_append.2 ⟨he.kind_ne_eof, hv⟩

theorem Orderly.kind_ne_eof {closers : List Kind} {word : List Symbol} (h : Orderly closers word) :
    ∀ s ∈ word, s.kind ≠ .eof := by
  induction h with
  | debris h => exact h.kind_ne_eof
  | statement hs _ _ ih => exact List.forall_mem_append.2 ⟨hs.kind_ne_eof, ih⟩
  | branch hu _ _ ihv | branchElse hu _ _ _ ihv | loop hu _ _ ihv =>
    have hhead := hu.kind_ne_eof (by decide) ihv
    simp_all [or_imp]
  | garbled hk hv hw =>
    have hhead := (by decide : ∀ k ∈ [Kind.kwIf, .kwWhile], k ≠ .eof) _ hk
    have hbody := hv.kind_ne_eof
    have hrest := hw.kind_ne_eof
    simp_all [or_imp]

/-! ## Places among the tokens -/

theorem TokenStream.mem_symbols {ts : List Token} {before after : List Symbol}
    (h : (ofTokens ts).symbols = before ++ after) :
    ∃ ts₁ ts₂, ts = ts₁ ++ ts₂ ∧ ts₁.map Token.toSymbol = before ∧
      (ofTokens ts₂).symbols = after ∧ ∀ t ∈ ts₁, t.kind ≠ .eof := by
  obtain ⟨rest, hts⟩ := body_prefix ts
  obtain ⟨ts₁, body, hbody, hbefore, hafter⟩ := List.map_eq_append_iff.1 h
  have hne : ∀ t ∈ ts₁, t.kind ≠ .eof := by
    intro t ht
    refine kind_ne_eof ts t.toSymbol ?_
    rw [h, ← hbefore]
    exact List.mem_append_left _ (List.mem_map_of_mem ht)
  refine ⟨ts₁, body ++ rest, by rw [← List.append_assoc, ← hbody, hts], hbefore, ?_, hne⟩
  rw [← hts, hbody, List.append_assoc, symbols_append hne, hbefore] at h
  exact List.append_cancel_left h

/-- A statement of a module that is parsed without a diagnostic stands between two parts of the
tokens. What fills its place is read together with them. -/
theorem TokenStream.hasSlot {ts : List Token} {m : Module} {s : Statement}
    {fill : List Statement → Module} (h : parseTokens ts = (m, [])) (hs : m.Holds s fill) :
    ∃ (closers : List Kind) (before word : List Token) (next : Token) (rest : List Token),
      Rule.Closing closers ∧ (∀ t ∈ before, t.kind ≠ .eof) ∧
      ts = before ++ (word ++ next :: rest) ∧ Derives .statement (word.map Token.toSymbol) s ∧
      ∀ (g : List Token) ss rs, (∀ t ∈ g, t.kind ≠ .eof) →
        Rule.FillsAt closers before.length (g.map Token.toSymbol) ss rs →
        (ofTokens (before ++ (g ++ next :: rest))).parse = (fill ss, Report.firstPerSymbol rs) := by
  obtain ⟨closers, before, word, after, hclosing, hword, hderives, hreads⟩ :=
    Rule.slotsPhrase_of_derives (Sentence.of_parseTokens h) s fill hs
  obtain ⟨before, behind, rfl, rfl, hbehind, hbefore⟩ := mem_symbols hword
  obtain ⟨word, behind, rfl, rfl, rfl, -⟩ := mem_symbols hbehind
  cases behind with
  | nil =>
    -- A module ends with a full stop, also when a name fills the place.
    have hname : Rule.statement.Reads [⟨.identifier, ""⟩] (.bare ⟨[""]⟩) _ :=
      Rule.readsPhrase_of_derives (.bare (.qualident .noMoreSegments))
    obtain ⟨-, init, l, hlast⟩ :=
      hreads 0 _ _ [] (Rule.fillsAt_of_readsAt hclosing (hname.readsAt _))
    have hnil : (ofTokens []).symbols = [] := rfl
    rw [hnil] at hlast
    simpa using congrArg List.getLast? hlast
  | cons next rest =>
    refine ⟨closers, before, word, next, rest, hclosing, hbefore, rfl, hderives,
      fun g ss rs hg hfills => ?_⟩
    obtain ⟨hread, -⟩ := hreads 0 _ ss rs (by simpa using hfills)
    have hrun := hread [] (by simp)
    rw [List.append_nil] at hrun
    rw [parse, symbols_append hbefore, symbols_append hg, Cursor.start, hrun]

/-- What fills a hole of a module is parsed together with the module. -/
theorem TokenStream.parse_hole {before after g : List Token} {fill : List Declaration → Module}
    {ds : List Declaration} {rs : List Report} (hbefore : ∀ t ∈ before, t.kind ≠ .eof)
    (h : Hole .compilationUnit (before.map Token.toSymbol) (ofTokens after).symbols fill)
    (hg : ∀ t ∈ g, t.kind ≠ .eof)
    (hfills : Rule.FillsHole before.length (g.map Token.toSymbol) ds rs) :
    (ofTokens (before ++ (g ++ after))).parse = (fill ds, Report.firstPerSymbol rs) := by
  obtain ⟨hread, -⟩ := Rule.readsAround_of_hole (i := 0) h (by simpa using hfills)
  have hrun := hread [] (by simp)
  rw [List.append_nil] at hrun
  rw [parse, symbols_append hbefore, symbols_append hg, Cursor.start, hrun]

/-- Reports on the tokens between `before` and `rest` make diagnostics that are true of them. -/
theorem TokenStream.trueOf_of_within {before g rest : List Token} {next : Token} {r : Report}
    (hr : r ∈ (ofTokens (before ++ (g ++ next :: rest))).parse.2)
    (hlo : before.length ≤ r.index) (hhi : r.index ≤ before.length + g.length) :
    ∃ t ∈ g ++ [next], (r.diagnostic (.ofTokens (before ++ (g ++ next :: rest)))).TrueOf t := by
  obtain ⟨t, hindex, htrue⟩ := (parse_reports _).2 r hr
  refine ⟨t, ?_, htrue⟩
  obtain ⟨stop, hstop⟩ := prefix_terminated (before ++ (g ++ next :: rest))
  rw [← hstop, List.append_assoc, List.getElem?_append_right hlo, ← List.singleton_append,
    ← List.append_assoc, List.append_assoc, List.getElem?_append_left (by simp; omega)] at hindex
  exact List.mem_of_getElem? hindex

/-- Where the reports are about certain tokens, so are the diagnostics. -/
theorem parseTokens_of_within {before g rest : List Token} {next : Token} {m : Module}
    {rs : List Report}
    (h : (TokenStream.ofTokens (before ++ (g ++ next :: rest))).parse =
      (m, Report.firstPerSymbol rs))
    (hbounds : Within before.length (before.length + g.length) rs) :
    ∃ ds, parseTokens (before ++ (g ++ next :: rest)) = (m, ds) ∧
      ∀ d ∈ ds, ∃ t ∈ g ++ [next], d.TrueOf t := by
  refine ⟨_, Prod.ext (by rw [parseTokens, h]) rfl, fun d hd => ?_⟩
  obtain ⟨r, hr, rfl⟩ := List.mem_map.1 ((List.mergeSort_perm _ _).subset hd)
  have hmem : r ∈ rs := (Report.firstPerSymbol_sublist rs).subset (by rwa [h] at hr)
  obtain ⟨hlo, hhi⟩ := hbounds r hmem
  exact TokenStream.trueOf_of_within hr hlo hhi

/-- Another statement may stand in the place of a statement. -/
theorem parseTokens_other {closers : List Kind} (h : Rule.Closing closers)
    {before after : List Token} {fill : List Statement → Module}
    (hparse : ∀ (g : List Token) ss rs, (∀ t ∈ g, t.kind ≠ .eof) →
      Rule.FillsAt closers before.length (g.map Token.toSymbol) ss rs →
      (TokenStream.ofTokens (before ++ (g ++ after))).parse = (fill ss, Report.firstPerSymbol rs))
    (other : List Token) (s : Statement) (hs : Derives .statement (other.map Token.toSymbol) s) :
    parseTokens (before ++ (other ++ after)) = (fill [s], []) := by
  have hne (t : Token) (ht : t ∈ other) : t.kind ≠ .eof :=
    hs.kind_ne_eof t.toSymbol (List.mem_map_of_mem ht)
  have hreads := (Rule.readsPhrase_of_derives hs).readsAt before.length
  exact parseTokens_eq_of_parse (hparse other [s] [] hne (Rule.fillsAt_of_readsAt h hreads))
    (Nat.zero_le 1)

/-- What fills the place of a statement leaves the module around it as it is. -/
theorem parseTokens_fill {ts : List Token} {m : Module} {s : Statement}
    {fill : List Statement → Module} (h : parseTokens ts = (m, [])) (hs : m.Holds s fill) :
    ∃ (before word : List Token) (next : Token) (rest : List Token),
      ts = before ++ (word ++ next :: rest) ∧ Derives .statement (word.map Token.toSymbol) s ∧
      (∀ (other : List Token) s', Derives .statement (other.map Token.toSymbol) s' →
        parseTokens (before ++ (other ++ next :: rest)) = (fill [s'], [])) ∧
      ∀ g : List Token, (∀ t ∈ g, t.kind ≠ .eof) →
        (∀ closers, Rule.Closing closers →
          Rule.Fills closers before.length (g.map Token.toSymbol)) →
        ∃ ss ds, parseTokens (before ++ (g ++ next :: rest)) = (fill ss, ds) ∧
          ∀ d ∈ ds, ∃ t ∈ g ++ [next], d.TrueOf t := by
  obtain ⟨closers, before, word, next, rest, hclosing, -, hts, hword, hparse⟩ :=
    TokenStream.hasSlot h hs
  refine ⟨before, word, next, rest, hts, hword, parseTokens_other hclosing hparse,
    fun g hg hfills => ?_⟩
  obtain ⟨ss, rs, hbounds, hfillsAt⟩ := hfills closers hclosing
  have hp := hparse g ss rs hg hfillsAt
  rw [List.length_map] at hbounds
  exact ⟨ss, parseTokens_of_within hp hbounds⟩

/-! ## Debris -/

/-- If the tokens of a statement are replaced by others that neither part, close nor nest
statements, the module is parsed as before but for that statement, and each diagnostic is about one
of these tokens or the one behind them. -/
theorem parseTokens_debris (ts : List Token) (m : Module) (s : Statement)
    (fill : List Statement → Module) (h : parseTokens ts = (m, [])) (hs : m.Holds s fill) :
    ∃ before word next rest, ts = before ++ (word ++ next :: rest) ∧
      Derives .statement (word.map Token.toSymbol) s ∧
      (∀ other s', Derives .statement (other.map Token.toSymbol) s' →
        parseTokens (before ++ (other ++ next :: rest)) = (fill [s'], [])) ∧
      ∀ debris : List Token,
        (∀ t ∈ debris, t.kind ∉ [.semicolon, .kwEnd, .kwElse, .kwIf, .kwWhile, .eof]) →
        ∃ ss ds, parseTokens (before ++ (debris ++ next :: rest)) = (fill ss, ds) ∧
          ∀ d ∈ ds, ∃ t ∈ debris ++ [next], d.TrueOf t := by
  obtain ⟨before, word, next, rest, hts, hword, hother, hfill⟩ := parseTokens_fill h hs
  refine ⟨before, word, next, rest, hts, hword, hother, fun debris hdebris => ?_⟩
  have hthen : Debris thenEnd (debris.map Token.toSymbol) := by
    intro s hs hk
    obtain ⟨t, ht, rfl⟩ := List.mem_map.1 hs
    exact hdebris t ht ((by decide : [.semicolon, .kwIf, .kwWhile, .eof] ++ thenEnd ⊆
      [.semicolon, .kwEnd, .kwElse, .kwIf, .kwWhile, .eof]) hk)
  exact hfill debris (fun t ht => hthen.kind_ne_eof t.toSymbol (List.mem_map_of_mem ht))
    fun closers h => Rule.fills_of_debris h _ _ (hthen.mono h.subset_thenEnd)

/-- Half an expression and a declaration stand in an alternative in a loop in a procedure. -/
theorem parseTokens_debris_nested :
    let tokens (column : Nat) (word : List Symbol) : List Token :=
      (word.zipIdx column).map fun (s, column) => ⟨s, ⟨1, column⟩⟩
    let ts := tokens 1
      [.ofKind .kwModule, .identifier "M", .ofKind .semicolon, .ofKind .kwProcedure,
        .identifier "P", .ofKind .semicolon, .ofKind .kwBegin, .ofKind .kwWhile, .identifier "a",
        .ofKind .kwDo, .ofKind .kwIf, .identifier "b", .ofKind .kwThen, .identifier "x",
        .ofKind .kwElse, .identifier "y", .ofKind .kwEnd, .ofKind .kwEnd, .ofKind .kwEnd,
        .identifier "P", .ofKind .semicolon, .ofKind .kwEnd, .identifier "M", .ofKind .period,
        .ofKind .eof]
    let debris := tokens 40
      [.identifier "x", .ofKind .becomes, .ofKind .lparen, .identifier "y", .ofKind .plus,
        .ofKind .kwVar, .identifier "z", .ofKind .colon]
    let name (n : String) : Expr := .simple ⟨none, ⟨.ref ⟨[n]⟩, []⟩, []⟩
    let fill (ss : List Statement) : Module :=
      ⟨"M", [], ⟨[.procedure ⟨"P", none, ⟨[], [.loop (name "a")
        [.branch (name "b") (ss ++ []) (some [.bare ⟨["y"]⟩])]]⟩, "P"⟩], []⟩, "M"⟩
    let x : Statement := .bare ⟨["x"]⟩
    parseTokens ts = (fill [x], []) ∧ (fill [x]).Holds x fill ∧
      (∀ t ∈ debris, t.kind ∉ [.semicolon, .kwEnd, .kwElse, .kwIf, .kwWhile, .eof]) ∧
      ∃ before word next rest, ts = before ++ (word ++ next :: rest) ∧
        Derives .statement (word.map Token.toSymbol) x ∧
        ∃ ss ds, parseTokens (before ++ (debris ++ next :: rest)) = (fill ss, ds) ∧
          ∀ d ∈ ds, ∃ t ∈ debris ++ [next], d.TrueOf t := by
  intro tokens ts debris name fill x
  have hparse : (TokenStream.ofTokens ts).parse = (fill [x], []) := by decide +kernel
  have h : parseTokens ts = (fill [x], []) := parseTokens_eq_of_parse hparse (Nat.zero_le 1)
  have hs : (fill [x]).Holds x fill :=
    .block (.declarations (.inside (.procedure (.statements (.inside (.loopBody
      (.inside (.thenBody .here))))))))
  have hdebris : ∀ t ∈ debris, t.kind ∉ [.semicolon, .kwEnd, .kwElse, .kwIf, .kwWhile, .eof] := by
    decide
  obtain ⟨before, word, next, rest, hts, hword, -, hfill⟩ := parseTokens_debris ts _ x fill h hs
  exact ⟨h, hs, hdebris, before, word, next, rest, hts, hword, hfill debris hdebris⟩

/-! ## Nested statements -/

/-- The same holds of tokens that nest statements, if each `IF` and `WHILE` of them begins a
statement behind whole ones, and has a sound condition, or else debris alone in its body and behind
it. -/
theorem parseTokens_orderly (ts : List Token) (m : Module) (s : Statement)
    (fill : List Statement → Module) (h : parseTokens ts = (m, [])) (hs : m.Holds s fill) :
    ∃ before word next rest, ts = before ++ (word ++ next :: rest) ∧
      Derives .statement (word.map Token.toSymbol) s ∧
      (∀ other s', Derives .statement (other.map Token.toSymbol) s' →
        parseTokens (before ++ (other ++ next :: rest)) = (fill [s'], [])) ∧
      ∀ g : List Token, Orderly thenEnd (g.map Token.toSymbol) →
        ∃ ss ds, parseTokens (before ++ (g ++ next :: rest)) = (fill ss, ds) ∧
          ∀ d ∈ ds, ∃ t ∈ g ++ [next], d.TrueOf t := by
  obtain ⟨before, word, next, rest, hts, hword, hother, hfill⟩ := parseTokens_fill h hs
  refine ⟨before, word, next, rest, hts, hword, hother, fun g hg => ?_⟩
  exact hfill g (fun t ht => hg.kind_ne_eof t.toSymbol (List.mem_map_of_mem ht))
    fun closers h => Rule.fills_of_orderly h _ (hg.mono h.subset_thenEnd)

/-- A statement, an alternative with half an expression in it, and in its other branch a loop with a
bracket too many. -/
theorem parseTokens_orderly_nested :
    let tokens (column : Nat) (word : List Symbol) : List Token :=
      (word.zipIdx column).map fun (s, column) => ⟨s, ⟨1, column⟩⟩
    let ts := tokens 1
      [.ofKind .kwModule, .identifier "M", .ofKind .semicolon, .ofKind .kwBegin, .ofKind .kwIf,
        .identifier "a", .ofKind .kwThen, .identifier "x", .ofKind .semicolon, .identifier "y",
        .ofKind .kwEnd, .ofKind .kwEnd, .identifier "M", .ofKind .period, .ofKind .eof]
    let g := tokens 40
      [.identifier "z", .ofKind .kwIf, .identifier "b", .ofKind .kwThen, .identifier "c",
        .ofKind .becomes, .ofKind .minus, .ofKind .kwElse, .ofKind .kwWhile, .identifier "d",
        .ofKind .kwDo, .identifier "e", .ofKind .rparen, .ofKind .kwEnd, .ofKind .kwEnd]
    let fill (ss : List Statement) : Module :=
      ⟨"M", [], ⟨[], [.branch (.simple ⟨none, ⟨.ref ⟨["a"]⟩, []⟩, []⟩)
        (ss ++ [.bare ⟨["y"]⟩]) none]⟩, "M"⟩
    let x : Statement := .bare ⟨["x"]⟩
    parseTokens ts = (fill [x], []) ∧ (fill [x]).Holds x fill ∧
      Orderly thenEnd (g.map Token.toSymbol) ∧
      ∃ before word next rest, ts = before ++ (word ++ next :: rest) ∧
        Derives .statement (word.map Token.toSymbol) x ∧
        ∃ ss ds, parseTokens (before ++ (g ++ next :: rest)) = (fill ss, ds) ∧
          ∀ d ∈ ds, ∃ t ∈ g ++ [next], d.TrueOf t := by
  intro tokens ts g fill x
  have hparse : (TokenStream.ofTokens ts).parse = (fill [x], []) := by decide +kernel
  have h : parseTokens ts = (fill [x], []) := parseTokens_eq_of_parse hparse (Nat.zero_le 1)
  have hs : (fill [x]).Holds x fill := .block (.statements (.inside (.thenBody .here)))
  have hname (n : String) : Derives .qualident [.identifier n] ⟨[n]⟩ := .qualident .noMoreSegments
  have hcond : Derives .expr [.identifier "b"] (.simple ⟨none, ⟨.ref ⟨["b"]⟩, []⟩, []⟩) :=
    .simple (.unsigned (.term (.ref (hname "b")) .noMoreFactors) .noMoreTerms)
  have hthen : Orderly thenEnd [.identifier "c", .ofKind .becomes, .ofKind .minus] :=
    .debris (by decide)
  have hbody : Debris sequenceEnd
      [.identifier "d", .ofKind .kwDo, .identifier "e", .ofKind .rparen] := by decide
  have helse : Orderly sequenceEnd [.ofKind .kwWhile, .identifier "d", .ofKind .kwDo,
      .identifier "e", .ofKind .rparen, .ofKind .kwEnd] :=
    .garbled (by decide) hbody (by decide : Debris sequenceEnd [])
  have hg : Orderly thenEnd (g.map Token.toSymbol) :=
    .statement (.bare (hname "z")) (.inr (by decide))
      (.branchElse (.present hcond) hthen helse (.debris (by decide : Debris thenEnd [])))
  obtain ⟨before, word, next, rest, hts, hword, -, hfill⟩ := parseTokens_orderly ts _ x fill h hs
  exact ⟨h, hs, hg, before, word, next, rest, hts, hword, hfill g hg⟩

/-- Each `IF` and `WHILE` of the word has its `END` in the word, and each `ELSE` stands inside an
`IF`; no semicolon parts the word. -/
inductive Matched : (insideIf : Bool) → List Symbol → Prop where
  | nil {insideIf : Bool} : Matched insideIf []
  | other {insideIf : Bool} {s : Symbol} {w : List Symbol} :
      s.kind ∉ [.semicolon, .kwEnd, .kwElse, .kwIf, .kwWhile, .eof] → Matched insideIf w →
      Matched insideIf (s :: w)
  | branch {insideIf : Bool} {l l' : String} {v w : List Symbol} :
      Matched true v → Matched insideIf w →
      Matched insideIf (⟨.kwIf, l⟩ :: (v ++ ⟨.kwEnd, l'⟩ :: w))
  | loop {insideIf : Bool} {l l' : String} {v w : List Symbol} :
      Matched insideIf v → Matched insideIf w →
      Matched insideIf (⟨.kwWhile, l⟩ :: (v ++ ⟨.kwEnd, l'⟩ :: w))
  | otherwise {l : String} {w : List Symbol} :
      Matched true w → Matched true (⟨.kwElse, l⟩ :: w)

/-- An `IF` that is skipped because it stands inside an expression leaves its `END` behind. It is
matched, but its `END` is taken for the one of the module, whose name is not found behind it. -/
theorem parseTokens_skipped_if :
    let tokens (column : Nat) (word : List Symbol) : List Token :=
      (word.zipIdx column).map fun (s, column) => ⟨s, ⟨1, column⟩⟩
    let before := tokens 1
      [.ofKind .kwModule, .identifier "M", .ofKind .semicolon, .ofKind .kwBegin]
    let after := tokens 20
      [.ofKind .kwEnd, .identifier "M", .ofKind .period, .ofKind .eof]
    let word := tokens 5 [.identifier "x"]
    let g := tokens 5
      [.identifier "x", .ofKind .becomes, .ofKind .kwIf, .identifier "a", .ofKind .kwThen,
        .identifier "b", .ofKind .kwEnd]
    let fill (ss : List Statement) : Module := ⟨"M", [], ⟨[], ss ++ []⟩, "M"⟩
    let x : Statement := .bare ⟨["x"]⟩
    parseTokens (before ++ (word ++ after)) = (fill [x], []) ∧ (fill [x]).Holds x fill ∧
      Derives .statement (word.map Token.toSymbol) x ∧ Matched false (g.map Token.toSymbol) ∧
      ∀ ss, (parseTokens (before ++ (g ++ after))).1 ≠ fill ss := by
  intro tokens before after word g fill x
  have hparse : (TokenStream.ofTokens (before ++ (word ++ after))).parse = (fill [x], []) := by
    decide +kernel
  have hmatched : Matched false (g.map Token.toSymbol) := by
    have hbody : Matched true [.identifier "a", .ofKind .kwThen, .identifier "b"] :=
      .other (by decide) (.other (by decide) (.other (by decide) .nil))
    exact .other (by decide) (.other (by decide) (.branch hbody .nil))
  have hend : (parseTokens (before ++ (g ++ after))).1.endName = "" := by decide +kernel
  refine ⟨parseTokens_eq_of_parse hparse (Nat.zero_le 1), .block (.statements .here),
    .bare (.qualident .noMoreSegments), hmatched, fun ss hss => ?_⟩
  rw [hss] at hend
  exact absurd hend (by simp [fill])

end ModSyntax
