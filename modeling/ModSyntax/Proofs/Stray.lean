import ModSyntax.Proofs.Damage
import ModSyntax.Proofs.Reading.Ending

/-!
# Stray tokens

Tokens that have no place where they stand are skipped, and nothing else is lost: the module is
parsed as if they were not there, and the one diagnostic is about the first of them. They may stand
behind a statement (`parseTokens_stray_behind_statement`) or, with a semicolon behind them, where a
declaration can begin (`parseTokens_stray_between_declarations`).
-/

namespace ModSyntax

/-! ## Behind a statement -/

/-- A statement, a symbol that neither goes on with it nor parts, begins or closes statements, and a
word without what parts or closes them, are read as the statement. -/
theorem Rule.fillsAt_stray {closers : List Kind} (h : Closing closers) {word g : List Symbol}
    {s : Statement} {t : Symbol} (hs : Derives .statement word s)
    (ht : t.kind ∉ statementGoesOn ++ Parser.statementStart ++ .eof :: statementStops)
    (hg : StopFree h.stops g) (i : Nat) :
    FillsAt closers i (word ++ t :: g) [s]
      [⟨i + word.length, .unexpected .statementSequence (.semicolon :: closers)⟩] := by
  intro rest hrest
  obtain ⟨hgoes, hstart, heof, hstops⟩ : t.kind ∉ statementGoesOn ∧
      t.kind ∉ Parser.statementStart ∧ t.kind ≠ .eof ∧ t.kind ∉ statementStops := by
    simpa using ht
  have hread : statement.Reads word s [t.kind] :=
    reads_statement_of_derives hs (by simpa using hgoes)
  have hfound := reads_orSkipUntil hread (.semicolon :: closers) (t :: (g ++ rest)) i
    (by simp)
  have hstray : t.kind ∉ [Kind.semicolon, .eof] ++ Parser.statementStart ++ closers := by
    have hclosers : t.kind ∉ closers := fun hk =>
      hstops (h.stops.subset (List.mem_cons_of_mem _ hk))
    have hsemi : t.kind ≠ .semicolon := fun hk => hstops (by simp [hk, statementStops])
    simp [hsemi, heof, hstart, hclosers]
  rw [List.append_assoc, List.cons_append, run_sequence h hfound,
    run_sequenceTail_stray h hstray hg hrest, List.length_append, ← Nat.add_assoc]
  rfl

/-- A single report about a token makes a diagnostic with its position and what it displays. -/
theorem parseTokens_eq_of_unexpected {before after : List Token} {t : Token} {m : Module}
    {rule : Construct} {expected : List Kind} (hbefore : ∀ t ∈ before, t.kind ≠ .eof)
    (ht : t.kind ≠ .eof)
    (h : (TokenStream.ofTokens (before ++ t :: after)).parse =
      (m, [⟨before.length, .unexpected rule expected⟩])) :
    parseTokens (before ++ t :: after) =
      (m, [⟨t.position, .unexpected t.display rule.name (expected.map Kind.spelling)⟩]) :=
  parseTokens_eq_of_report hbefore ht h

/-- A stray token behind a statement is skipped with the tokens up to the next one that parts or
closes statements. The module is parsed as before, and the one diagnostic is about the stray
token. -/
theorem parseTokens_stray_behind_statement (ts : List Token) (m : Module) (s : Statement)
    (fill : List Statement → Module) (h : parseTokens ts = (m, [])) (hs : m.Holds s fill) :
    ∃ (before word : List Token) (next : Token) (rest : List Token),
      ts = before ++ (word ++ next :: rest) ∧ Derives .statement (word.map Token.toSymbol) s ∧
      (∀ (other : List Token) s', Derives .statement (other.map Token.toSymbol) s' →
        parseTokens (before ++ (other ++ next :: rest)) = (fill [s'], [])) ∧
      ∀ (t : Token) (g : List Token),
        t.kind ∈ [.rparen, .comma, .colon, .kwThen, .kwDo, .kwModule, .kwFrom, .kwImport, .kwConst,
          .kwVar, .kwProcedure, .kwBegin] →
        (∀ t ∈ g, t.kind ∉ [.semicolon, .kwEnd, .kwElse, .eof]) →
        ∃ expected, parseTokens (before ++ (word ++ t :: (g ++ next :: rest))) =
          (m, [⟨t.position, .unexpected t.display "statement sequence" expected⟩]) := by
  obtain ⟨closers, before, word, next, rest, hclosing, hbefore, hts, hword, hparse⟩ :=
    TokenStream.hasSlot h hs
  have hother := parseTokens_other hclosing hparse
  refine ⟨before, word, next, rest, hts, hword, hother, fun t g ht hg => ?_⟩
  have hm : fill [s] = m := by
    rw [hts, hother word s hword] at h
    exact congrArg Prod.fst h
  have hends : ∀ k ∈ [Kind.rparen, .comma, .colon, .kwThen, .kwDo, .kwModule, .kwFrom, .kwImport,
      .kwConst, .kwVar, .kwProcedure, .kwBegin],
      k ∉ Rule.statementGoesOn ++ Parser.statementStart ++ .eof :: statementStops := by decide
  have hfree : StopFree hclosing.stops (g.map Token.toSymbol) := by
    intro s hs hk
    obtain ⟨t, ht, rfl⟩ := List.mem_map.1 hs
    exact hg t ht ((by decide : statementStops ⊆ [.semicolon, .kwEnd, .kwElse, .eof])
      (hclosing.stops.subset hk))
  have ht_ne : t.kind ≠ .eof := fun hk => hends _ ht (by simp [hk])
  have hword_ne : ∀ t ∈ word, t.kind ≠ .eof := fun t ht =>
    hword.kind_ne_eof t.toSymbol (List.mem_map_of_mem ht)
  have hg_ne : ∀ t ∈ g, t.kind ≠ .eof := fun t ht hk => hg t ht (by simp [hk])
  have hparsed := hparse (word ++ t :: g) [s] _
    (List.forall_mem_append.2 ⟨hword_ne, List.forall_mem_cons.2 ⟨ht_ne, hg_ne⟩⟩)
    (by simpa using Rule.fillsAt_stray hclosing hword (hends _ ht) hfree before.length)
  have hassoc : before ++ (word ++ t :: g ++ next :: rest) =
      (before ++ word) ++ t :: (g ++ next :: rest) := by simp
  rw [hassoc, hm, ← List.length_append] at hparsed
  rw [← List.append_assoc]
  exact ⟨_, parseTokens_eq_of_unexpected (List.forall_mem_append.2 ⟨hbefore, hword_ne⟩) ht_ne
    hparsed⟩

/-- A comma, a whole alternative but for its `END`, and the beginning of a loop stand behind a
`RETURN` in a branch in a loop in a procedure. -/
theorem parseTokens_stray_behind_return :
    let tokens (column : Nat) (word : List Symbol) : List Token :=
      (word.zipIdx column).map fun (s, column) => ⟨s, ⟨1, column⟩⟩
    let ts := tokens 1
      [.ofKind .kwModule, .identifier "M", .ofKind .semicolon, .ofKind .kwProcedure,
        .identifier "P", .ofKind .semicolon, .ofKind .kwBegin, .ofKind .kwWhile, .identifier "a",
        .ofKind .kwDo, .ofKind .kwIf, .identifier "b", .ofKind .kwThen, .ofKind .kwReturn,
        .ofKind .kwElse, .identifier "y", .ofKind .kwEnd, .ofKind .kwEnd, .ofKind .kwEnd,
        .identifier "P", .ofKind .semicolon, .ofKind .kwEnd, .identifier "M", .ofKind .period,
        .ofKind .eof]
    let stray : Token := ⟨.ofKind .comma, ⟨2, 1⟩⟩
    let g := tokens 40
      [.ofKind .kwIf, .identifier "b", .ofKind .kwThen, .identifier "x", .ofKind .kwWhile]
    let name (n : String) : Expr := .simple ⟨none, ⟨.ref ⟨[n]⟩, []⟩, []⟩
    let fill (ss : List Statement) : Module :=
      ⟨"M", [], ⟨[.procedure ⟨"P", none, ⟨[], [.loop (name "a")
        [.branch (name "b") (ss ++ []) (some [.bare ⟨["y"]⟩])]]⟩, "P"⟩], []⟩, "M"⟩
    let m := fill [.leave none]
    parseTokens ts = (m, []) ∧ m.Holds (.leave none) fill ∧ stray.kind = .comma ∧
      (∀ t ∈ g, t.kind ∉ [.semicolon, .kwEnd, .kwElse, .eof]) ∧
      ∃ (before word : List Token) (next : Token) (rest : List Token),
        ts = before ++ (word ++ next :: rest) ∧
        Derives .statement (word.map Token.toSymbol) (.leave none) ∧
        ∃ expected, parseTokens (before ++ (word ++ stray :: (g ++ next :: rest))) =
          (m, [⟨⟨2, 1⟩, .unexpected "," "statement sequence" expected⟩]) := by
  intro tokens ts stray g name fill m
  have hparse : (TokenStream.ofTokens ts).parse = (m, []) := by decide +kernel
  have h : parseTokens ts = (m, []) := parseTokens_eq_of_parse hparse (Nat.zero_le 1)
  have hs : m.Holds (.leave none) fill :=
    .block (.declarations (.inside (.procedure (.statements (.inside (.loopBody
      (.inside (.thenBody .here))))))))
  have hg : ∀ t ∈ g, t.kind ∉ [.semicolon, .kwEnd, .kwElse, .eof] := by decide
  obtain ⟨before, word, next, rest, hts, hword, -, hstray⟩ :=
    parseTokens_stray_behind_statement ts m (.leave none) fill h hs
  exact ⟨h, hs, rfl, hg, before, word, next, rest, hts, hword, hstray stray g (by decide) hg⟩

/-! ## Between declarations -/

/-- A declaration can begin between the tokens: a section of constants may be put there. -/
def DeclarationPoint (before after : List Token) : Prop :=
  ∃ t m, t.kind = .kwConst ∧ parseTokens (before ++ t :: after) = (m, [])

/-- Where a declaration can begin there is a hole, if no entry follows. -/
theorem DeclarationPoint.hole {before after : List Token} (h : DeclarationPoint before after)
    (hbefore : ∀ t ∈ before, t.kind ≠ .eof)
    (hafter : headKind (TokenStream.ofTokens after).symbols ≠ .identifier) :
    ∃ fill, Hole .compilationUnit (before.map Token.toSymbol) (TokenStream.ofTokens after).symbols
      fill := by
  obtain ⟨⟨⟨_, l⟩, position⟩, m, rfl, h⟩ := h
  have hm := Sentence.of_parseTokens h
  rw [TokenStream.symbols_append hbefore] at hm
  exact holesPhrase_of_derives hm _ l _ rfl hafter

/-- Symbols that begin no declaration fill a hole with nothing, together with a semicolon. -/
theorem Rule.fillsHole_stray {word : List Symbol} (l : String)
    (hword : ∀ s ∈ word, s.kind ∉ .eof :: Parser.declarationSync)
    (hopens : word = [] ∨ headKind word ∈ blockStart) (i : Nat) :
    FillsHole i (word ++ [⟨.semicolon, l⟩]) []
      [⟨i, .unexpected .block [.kwConst, .kwVar, .kwProcedure, .kwBegin, .kwEnd]⟩] := by
  refine ⟨(resumesAt_stray l hword i).mono fun _ _ => Kind.mem_all _, .inr ?_⟩
  rcases hopens with rfl | hhead
  · simp [mem_blockStart]
  · rwa [headKind_append_of_ne fun he => by simp [he, mem_blockStart] at hhead]

theorem TokenStream.parse_stray {before after : List Token} (word : List Token)
    {semicolon : Token} {fill : List Declaration → Module} (hbefore : ∀ t ∈ before, t.kind ≠ .eof)
    (h : Hole .compilationUnit (before.map Token.toSymbol) (ofTokens after).symbols fill)
    (hsemi : semicolon.kind = .semicolon)
    (hword : ∀ t ∈ word, t.kind ∉ .eof :: Parser.declarationSync)
    (hopens : word = [] ∨ headKind (word.map Token.toSymbol) ∈ Rule.blockStart) :
    (ofTokens (before ++ ((word ++ [semicolon]) ++ after))).parse =
      (fill [], [⟨before.length,
        .unexpected .block [.kwConst, .kwVar, .kwProcedure, .kwBegin, .kwEnd]⟩]) := by
  obtain ⟨⟨_, l⟩, position⟩ := semicolon
  obtain rfl : _ = Kind.semicolon := hsemi
  have hfills := Rule.fillsHole_stray l (List.forall_mem_map.2 hword)
    (hopens.imp List.map_eq_nil_iff.2 id) before.length
  have hne : ∀ t ∈ word ++ [Token.mk ⟨.semicolon, l⟩ position], t.kind ≠ .eof :=
    List.forall_mem_append.2 ⟨fun t ht hk => hword t ht (by simp [hk]), by simp⟩
  exact parse_hole hbefore h hne (by simpa using hfills)

/-- A stray token where a declaration can begin is skipped with the tokens up to the next semicolon
or keyword of a block, and with the semicolon. -/
theorem parseTokens_stray_between_declarations (before rest : List Token) (next : Token)
    (m : Module) (h : parseTokens (before ++ next :: rest) = (m, []))
    (hbefore : ∀ t ∈ before, t.kind ≠ .eof)
    (hnext : next.kind ∈ [.kwConst, .kwVar, .kwProcedure, .kwBegin, .kwEnd])
    (hpoint : DeclarationPoint before (next :: rest)) :
    (∀ semicolon : Token, semicolon.kind = .semicolon →
      parseTokens (before ++ semicolon :: next :: rest) =
        (m, [⟨semicolon.position, .unexpected semicolon.display "block"
          ["CONST", "VAR", "PROCEDURE", "BEGIN", "END"]⟩])) ∧
      ∀ (t : Token) (g : List Token) (semicolon : Token),
        t.kind ∉ [.identifier, .kwFrom, .kwImport, .semicolon, .kwConst, .kwVar, .kwProcedure,
          .kwBegin, .kwEnd, .eof] →
        (∀ t ∈ g, t.kind ∉ [.semicolon, .kwConst, .kwVar, .kwProcedure, .kwBegin, .kwEnd, .eof]) →
        semicolon.kind = .semicolon →
        parseTokens (before ++ t :: (g ++ semicolon :: next :: rest)) =
          (m, [⟨t.position, .unexpected t.display "block"
            ["CONST", "VAR", "PROCEDURE", "BEGIN", "END"]⟩]) := by
  have hne : next.kind ≠ .eof ∧ next.kind ≠ .identifier :=
    (by decide : ∀ k ∈ [Kind.kwConst, .kwVar, .kwProcedure, .kwBegin, .kwEnd],
      k ≠ .eof ∧ k ≠ .identifier) _ hnext
  have hsymbols : (TokenStream.ofTokens (next :: rest)).symbols =
      next.toSymbol :: (TokenStream.ofTokens rest).symbols := by
    simp [TokenStream.symbols, TokenStream.ofTokens, hne.1]
  obtain ⟨fill, hhole⟩ := hpoint.hole hbefore (by rw [hsymbols]; exact hne.2)
  have hm : fill [] = m := by
    have hparse := TokenStream.parse_hole (g := []) hbefore hhole (by simp)
      ⟨Parser.resumesAt_nil _ _ _, .inl rfl⟩
    rw [List.nil_append] at hparse
    rw [parseTokens_eq_of_parse hparse (Nat.zero_le 1)] at h
    exact congrArg Prod.fst h
  constructor
  · intro semicolon hsemi
    have hparse := TokenStream.parse_stray [] hbefore hhole hsemi (by simp) (.inl rfl)
    rw [hm] at hparse
    exact parseTokens_eq_of_unexpected hbefore (by simp [hsemi]) hparse
  · intro t g semicolon ht hg hsemi
    have hsync : ∀ s ∈ t :: g, s.kind ∉ .eof :: Parser.declarationSync := by
      refine List.forall_mem_cons.2 ⟨fun hk => ht ?_, fun s hs hk => hg s hs ?_⟩
      · exact (by decide : .eof :: Parser.declarationSync ⊆ _) hk
      · exact (by decide : .eof :: Parser.declarationSync ⊆ _) hk
    have hopens : t.kind ∈ Rule.blockStart := Rule.mem_blockStart.2 fun hk =>
      ht ((by decide : [.identifier, .kwFrom, .kwImport, .eof] ⊆ _) hk)
    have hparse := TokenStream.parse_stray (t :: g) hbefore hhole hsemi hsync (.inr hopens)
    rw [hm, List.append_assoc] at hparse
    exact parseTokens_eq_of_unexpected hbefore (fun hk => ht (by simp [hk])) hparse

/-- A bracket, an expression and a comma stand behind the empty section of a procedure. -/
theorem parseTokens_stray_behind_empty_section :
    let tokens (column : Nat) (word : List Symbol) : List Token :=
      (word.zipIdx column).map fun (s, column) => ⟨s, ⟨1, column⟩⟩
    let before := tokens 1
      [.ofKind .kwModule, .identifier "M", .ofKind .semicolon, .ofKind .kwConst, .identifier "c",
        .ofKind .equal, .identifier "d", .ofKind .semicolon, .ofKind .kwProcedure, .identifier "P",
        .ofKind .semicolon, .ofKind .kwVar]
    let next : Token := ⟨.ofKind .kwBegin, ⟨1, 20⟩⟩
    let rest := tokens 21
      [.identifier "x", .ofKind .kwEnd, .identifier "P", .ofKind .semicolon, .ofKind .kwEnd,
        .identifier "M", .ofKind .period, .ofKind .eof]
    let stray : Token := ⟨.ofKind .rparen, ⟨2, 1⟩⟩
    let g := tokens 40 [.identifier "x", .ofKind .plus, .identifier "y", .ofKind .comma]
    let semicolon : Token := ⟨.ofKind .semicolon, ⟨3, 1⟩⟩
    let m : Module :=
      ⟨"M", [], ⟨[.constant "c" (.simple ⟨none, ⟨.ref ⟨["d"]⟩, []⟩, []⟩),
        .procedure ⟨"P", none, ⟨[], [.bare ⟨["x"]⟩]⟩, "P"⟩], []⟩, "M"⟩
    parseTokens (before ++ next :: rest) = (m, []) ∧ DeclarationPoint before (next :: rest) ∧
      parseTokens (before ++ semicolon :: next :: rest) =
        (m, [⟨⟨3, 1⟩, .unexpected ";" "block" ["CONST", "VAR", "PROCEDURE", "BEGIN", "END"]⟩]) ∧
      parseTokens (before ++ stray :: (g ++ semicolon :: next :: rest)) =
        (m, [⟨⟨2, 1⟩, .unexpected ")" "block" ["CONST", "VAR", "PROCEDURE", "BEGIN", "END"]⟩]) := by
  intro tokens before next rest stray g semicolon m
  have hparse : (TokenStream.ofTokens (before ++ next :: rest)).parse = (m, []) := by
    decide +kernel
  have h : parseTokens (before ++ next :: rest) = (m, []) :=
    parseTokens_eq_of_parse hparse (Nat.zero_le 1)
  have hpoint : DeclarationPoint before (next :: rest) := by
    have hconst :
        (TokenStream.ofTokens (before ++ ⟨.ofKind .kwConst, ⟨2, 1⟩⟩ :: next :: rest)).parse =
          (m, []) := by decide +kernel
    exact ⟨_, m, rfl, parseTokens_eq_of_parse hconst (Nat.zero_le 1)⟩
  obtain ⟨hsemi, hstray⟩ := parseTokens_stray_between_declarations before rest next m h (by decide)
    (by decide) hpoint
  exact ⟨h, hpoint, hsemi semicolon rfl, hstray stray g semicolon (by decide) (by decide) rfl⟩

end ModSyntax
