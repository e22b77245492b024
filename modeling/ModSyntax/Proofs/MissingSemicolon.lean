import ModSyntax.Proofs.Acceptance
import ModSyntax.Proofs.Reading.Missing

/-!
# A missing semicolon

A module that has lost one of its semicolons is parsed as if the semicolon stood there, and the only
diagnostic asks for it at the token that stands in its place (`parseTokens_without_semicolon`).
-/

namespace ModSyntax

/-- A sentence ends with a full stop. -/
theorem Sentence.ends {word : List Symbol} {m : Module} (h : Sentence word m) :
    ∃ init l, word = init ++ [⟨.period, l⟩] := by
  cases h with
  | @compilationUnit l₁ n l₂ u _ v _ m l₃ _ _ =>
    exact ⟨⟨.kwModule, l₁⟩ :: ⟨.identifier, n⟩ :: ⟨.semicolon, l₂⟩ ::
      (u ++ (v ++ [⟨.identifier, m⟩])), l₃, by simp⟩

/-- What is parsed without a diagnostic is a sentence. -/
theorem Sentence.of_parseTokens {ts : List Token} {m : Module} (h : parseTokens ts = (m, [])) :
    Sentence (TokenStream.ofTokens ts).symbols m := by
  rw [parseTokens, Prod.mk.injEq, Diagnostic.inSourceOrder_eq_nil_iff,
    parserDiagnostics_eq_nil_iff] at h
  exact (Rule.run_compilationUnit_iff_sentence (TokenStream.kind_ne_eof ts) m).1 h

/-- A sentence that lacks a semicolon is parsed as the sentence, with one report. -/
theorem Sentence.run_without_semicolon {before after : List Symbol} {l : String} {m : Module}
    (h : Sentence (before ++ ⟨.semicolon, l⟩ :: after) m) (hne : ¬Essential before after) :
    ∃ rule, Rule.compilationUnit.run (.start (before ++ after)) =
      ⟨m, ⟨[], (before ++ after).length⟩, [⟨before.length, .unexpected rule [.semicolon]⟩]⟩ := by
  obtain ⟨rule, hread⟩ := Rule.mendsPhrase_of_derives h before l after rfl hne
  have hrun := hread 0 [] (by simp)
  rw [List.append_nil, Nat.zero_add, Nat.zero_add] at hrun
  refine ⟨rule, ?_⟩
  rw [Cursor.start, hrun]

/-- A single report needs no sorting. -/
theorem parseTokens_eq_of_parse {ts : List Token} {m : Module} {rs : List Report}
    (h : (TokenStream.ofTokens ts).parse = (m, rs)) (hlength : rs.length ≤ 1) :
    parseTokens ts = (m, rs.map (Report.diagnostic (.ofTokens ts))) := by
  rw [parseTokens, parserDiagnostics, h]
  cases rs with
  | nil => simp [Diagnostic.inSourceOrder, Position.sortOn]
  | cons r rs =>
    obtain rfl : rs = [] := by simpa using hlength
    simp [Diagnostic.inSourceOrder, Position.sortOn]

/-- A single report about a token makes a diagnostic with its position. -/
theorem parseTokens_eq_of_report {before after : List Token} {t : Token} {m : Module}
    {complaint : Complaint} (hbefore : ∀ t ∈ before, t.kind ≠ .eof) (ht : t.kind ≠ .eof)
    (h : (TokenStream.ofTokens (before ++ t :: after)).parse =
      (m, [⟨before.length, complaint⟩])) :
    parseTokens (before ++ t :: after) =
      (m, [⟨t.position, Report.problem ⟨before.length, complaint⟩ (some t.toSymbol)⟩]) := by
  have hbody : (TokenStream.ofTokens (before ++ t :: after)).body[before.length]? = some t := by
    rw [TokenStream.body_append hbefore]
    simp [TokenStream.ofTokens, ht]
  rw [parseTokens_eq_of_parse h (Nat.le_refl 1)]
  simp [Report.diagnostic, TokenStream.positionAt, hbody]

/-- Without one of the semicolons before its end, unless that is essential, a module is parsed as
before, and the one diagnostic is about the token behind the gap: instead of it, a semicolon is
expected. -/
theorem parseTokens_without_semicolon (before : List Token) (semicolon : Token) (after : List Token)
    (m : Module) (hbefore : ∀ t ∈ before, t.kind ≠ .eof) (hsemi : semicolon.kind = .semicolon)
    (hne : ¬Essential (before.map Token.toSymbol) (after.map Token.toSymbol))
    (h : parseTokens (before ++ semicolon :: after) = (m, [])) :
    ∃ next rest, after = next :: rest ∧ ∃ rule : Construct,
      parseTokens (before ++ after) =
        (m, [⟨next.position, .unexpected next.display rule.name [";"]⟩]) := by
  obtain ⟨⟨_, l⟩, p⟩ := semicolon
  obtain rfl : _ = Kind.semicolon := hsemi
  have hm := Sentence.of_parseTokens h
  rw [TokenStream.symbols_append hbefore] at hm
  change Sentence (_ ++ ⟨.semicolon, l⟩ :: (TokenStream.ofTokens after).symbols) m at hm
  obtain ⟨tail, hafter⟩ := TokenStream.body_prefix after
  have hinner : ¬Essential (before.map Token.toSymbol) (TokenStream.ofTokens after).symbols := by
    intro he
    refine hne ?_
    rw [← hafter, List.map_append]
    exact he.append_right _
  obtain ⟨rule, hrun⟩ := hm.run_without_semicolon hinner
  -- A sentence does not end with a semicolon, so there is a token behind it.
  cases hbody : (TokenStream.ofTokens after).body with
  | nil =>
    obtain ⟨init, l', hw⟩ := hm.ends
    rw [TokenStream.symbols, hbody] at hw
    simpa using congrArg List.getLast? hw
  | cons next rest =>
    refine ⟨next, rest ++ tail, by rw [← hafter, hbody]; rfl, rule, ?_⟩
    have hparse : (TokenStream.ofTokens (before ++ after)).parse =
        (m, [⟨(before.map Token.toSymbol).length, .unexpected rule [.semicolon]⟩]) := by
      rw [TokenStream.parse, TokenStream.symbols_append hbefore, hrun]
      rfl
    rw [parseTokens_eq_of_parse hparse (Nat.le_refl 1)]
    simp [Report.diagnostic, Report.problem, TokenStream.positionAt,
      TokenStream.body_append hbefore, hbody, Kind.spelling]

/-- The semicolon behind a `RETURN` in front of an `IF` is missing. -/
theorem parseTokens_return_if :
    let tokens (column : Nat) (word : List Symbol) : List Token :=
      (word.zipIdx column).map fun (s, column) => ⟨s, ⟨1, column⟩⟩
    let before := tokens 1
      [.ofKind .kwModule, .identifier "M", .ofKind .semicolon, .ofKind .kwProcedure,
        .identifier "P", .ofKind .lparen, .identifier "a", .ofKind .colon, .identifier "T",
        .ofKind .semicolon, .identifier "b", .ofKind .colon, .identifier "T", .ofKind .rparen,
        .ofKind .semicolon, .ofKind .kwBegin, .ofKind .kwReturn]
    let after := tokens 19
      [.ofKind .kwIf, .identifier "a", .ofKind .kwThen, .identifier "b", .ofKind .kwEnd,
        .ofKind .kwEnd, .identifier "P", .ofKind .semicolon, .ofKind .kwEnd, .identifier "M",
        .ofKind .period, .ofKind .eof]
    let semicolon : Token := ⟨.ofKind .semicolon, ⟨1, 18⟩⟩
    let m : Module :=
      ⟨"M", [], ⟨[.procedure ⟨"P", some ⟨[⟨false, ["a"], ⟨["T"]⟩⟩, ⟨false, ["b"], ⟨["T"]⟩⟩], none⟩,
        ⟨[], [.leave none,
          .branch (.simple ⟨none, ⟨.ref ⟨["a"]⟩, []⟩, []⟩) [.bare ⟨["b"]⟩] none]⟩, "P"⟩], []⟩, "M"⟩
    (∀ t ∈ before, t.kind ≠ .eof) ∧
      ¬Essential (before.map Token.toSymbol) (after.map Token.toSymbol) ∧
      parseTokens (before ++ semicolon :: after) = (m, []) ∧
      ∃ rule : Construct, parseTokens (before ++ after) =
        (m, [⟨⟨1, 19⟩, .unexpected "IF" rule.name [";"]⟩]) := by
  intro tokens before after semicolon m
  have hbefore : ∀ t ∈ before, t.kind ≠ .eof := by decide
  have hne : ¬Essential (before.map Token.toSymbol) (after.map Token.toSymbol) :=
    fun he => absurd he.headKind_mem (by decide)
  have hparse : (TokenStream.ofTokens (before ++ semicolon :: after)).parse = (m, []) := by
    decide +kernel
  have h : parseTokens (before ++ semicolon :: after) = (m, []) :=
    parseTokens_eq_of_parse hparse (Nat.zero_le 1)
  obtain ⟨next, rest, hafter, rule, hrule⟩ :=
    parseTokens_without_semicolon before semicolon after m hbefore rfl hne h
  obtain rfl : ⟨.ofKind .kwIf, ⟨1, 19⟩⟩ = next := (List.cons.inj hafter).1
  exact ⟨hbefore, hne, h, rule, hrule⟩

end ModSyntax
