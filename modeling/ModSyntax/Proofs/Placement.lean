import ModSyntax.Proofs.Simulation.Module

/-!
# Where the tokens stand does not matter

The token parser has the positions of the tokens at hand all the time, and puts them into its
diagnostics. Nothing of them comes back into what it does: on two lists of tokens with the same
symbols it goes the same way, makes the same module, and reports the same at the same tokens
(`parseTokens_placement`). Both runs simulate the run over the symbols, which they share.

Positions decide on one thing: the order in which the diagnostics are returned. They are compared in
the order in which they are reported.
-/

namespace ModSyntax

/-- The tokens are of one kind, and written with the same characters. -/
def Token.Same (t t' : Token) : Prop := t.kind = t'.kind ∧ t.lexeme = t'.lexeme

theorem Token.Same.toSymbol_eq {t t' : Token} (h : t.Same t') : t.toSymbol = t'.toSymbol := by
  obtain ⟨⟨kind, lexeme⟩, _⟩ := t
  obtain ⟨⟨kind', lexeme'⟩, _⟩ := t'
  obtain ⟨rfl, rfl⟩ : kind = kind' ∧ lexeme = lexeme' := h
  rfl

theorem map_toSymbol_eq {ts ts' : List Token} (h : List.Forall₂ Token.Same ts ts') :
    ts.map Token.toSymbol = ts'.map Token.toSymbol := by
  induction h with
  | nil => rfl
  | cons ht _ ih => rw [List.map_cons, List.map_cons, ht.toSymbol_eq, ih]

/-- A stream is parsed by its symbols. -/
theorem TokenStream.parse_congr {s s' : TokenStream} (h : s.symbols = s'.symbols) :
    s.parse = s'.parse := by
  rw [parse, parse, h]

/-- What a diagnostic says depends on the symbols. -/
theorem Report.problem_diagnostic (s : TokenStream) (r : Report) :
    (r.diagnostic s).problem = r.problem s.symbols[r.index]? := by
  rw [diagnostic, TokenStream.symbols, List.getElem?_map]

/-- The same is said, of the same token. -/
def Reported.Same (e e' : Reported) : Prop :=
  e.index = e'.index ∧ e.diagnostic.problem = e'.diagnostic.problem

/-- The diagnostic stands where its token does. -/
def Reported.InPlace (ts : List Token) (e : Reported) : Prop :=
  ∃ t, (terminated ts)[e.index]? = some t ∧ e.diagnostic.position = t.position

theorem Reported.inPlace_ofReport {ts : List Token} {r : Report}
    (h : r ∈ (TokenStream.ofTokens ts).parse.2) : (Reported.ofReport ts r).InPlace ts := by
  obtain ⟨t, ht, htrue⟩ := (TokenStream.parse_reports ts).2 r h
  exact ⟨t, ht, htrue.position⟩

theorem parseTokens_eq_ofReport (ts : List Token) :
    parseTokens ts = ((TokenStream.ofTokens ts).parse.1, Diagnostic.inSourceOrder
      (((TokenStream.ofTokens ts).parse.2.map (Reported.ofReport ts)).map (·.diagnostic))) := by
  rw [List.map_map]
  rfl

/-- Two lists of tokens with the same symbols are both parsed to an end, and give the same module. On
both the same is reported, in the same order and of the same tokens, and each diagnostic stands where
its own list has that token. What is returned are these diagnostics in the order of the text. -/
theorem parseTokens_placement (ts ts' : List Token) (h : List.Forall₂ Token.Same ts ts') :
    ∃ (m : Module) (log log' : List Reported),
      TokenParser.parse ts = some (m, log) ∧ TokenParser.parse ts' = some (m, log') ∧
      List.Forall₂ Reported.Same log log' ∧
      (∀ e ∈ log, e.InPlace ts) ∧ (∀ e ∈ log', e.InPlace ts') ∧
      parseTokens ts = (m, Diagnostic.inSourceOrder (log.map (·.diagnostic))) ∧
      parseTokens ts' = (m, Diagnostic.inSourceOrder (log'.map (·.diagnostic))) := by
  have hsymbols := TokenStream.symbols_ofTokens_congr (map_toSymbol_eq h)
  have hparse := TokenStream.parse_congr hsymbols
  have hsame : List.Forall₂ Reported.Same
      ((TokenStream.ofTokens ts).parse.2.map (Reported.ofReport ts))
      ((TokenStream.ofTokens ts').parse.2.map (Reported.ofReport ts')) := by
    rw [← hparse]
    refine List.forall₂_map_left_iff.2 (List.forall₂_map_right_iff.2 (List.forall₂_same.2 ?_))
    intro r _
    refine ⟨rfl, ?_⟩
    simp only [Reported.ofReport, Report.problem_diagnostic, hsymbols]
  refine ⟨_, _, _, TokenParser.parse_eq ts, ?_, hsame,
    List.forall_mem_map.2 fun _ => Reported.inPlace_ofReport,
    List.forall_mem_map.2 fun _ => Reported.inPlace_ofReport, parseTokens_eq_ofReport ts, ?_⟩
  · rw [hparse, TokenParser.parse_eq]
  · rw [hparse, parseTokens_eq_ofReport]

/-- Two expressions are missing in `BEGIN x := ; y := END`. The same is reported where every token
stands on a line of its own above the one it follows; there the later report has the smaller
position. -/
theorem parseTokens_backwards :
    let word : List Symbol :=
      [.ofKind .kwModule, .identifier "M", .ofKind .semicolon, .ofKind .kwBegin, .identifier "x",
        .ofKind .becomes, .ofKind .semicolon, .identifier "y", .ofKind .becomes, .ofKind .kwEnd,
        .identifier "M", .ofKind .period]
    let ts : List Token := word.zipIdx.map fun (s, i) => ⟨s, ⟨1, i⟩⟩
    let ts' : List Token := word.zipIdx.map fun (s, i) => ⟨s, ⟨12 - i, 1⟩⟩
    List.Forall₂ Token.Same ts ts' ∧
      ∃ (m : Module) (log log' : List Reported),
        TokenParser.parse ts = some (m, log) ∧ TokenParser.parse ts' = some (m, log') ∧
        List.Forall₂ Reported.Same log log' ∧
        log.map (·.index) = [6, 9] ∧ log.map (·.diagnostic.position) = [⟨1, 6⟩, ⟨1, 9⟩] ∧
        log'.map (·.index) = [6, 9] ∧ log'.map (·.diagnostic.position) = [⟨6, 1⟩, ⟨3, 1⟩] := by
  intro word ts ts'
  have hsame : List.Forall₂ Token.Same ts ts' := by
    refine List.forall₂_map_left_iff.2 (List.forall₂_map_right_iff.2 (List.forall₂_same.2 ?_))
    exact fun _ _ => ⟨rfl, rfl⟩
  obtain ⟨m, log, log', hrun, hrun', hlogs, -⟩ := parseTokens_placement ts ts' hsame
  have hlog : log = (TokenStream.ofTokens ts).parse.2.map (Reported.ofReport ts) := by
    rw [TokenParser.parse_eq, Option.some.injEq, Prod.mk.injEq] at hrun
    exact hrun.2.symm
  have hlog' : log' = (TokenStream.ofTokens ts').parse.2.map (Reported.ofReport ts') := by
    rw [TokenParser.parse_eq, Option.some.injEq, Prod.mk.injEq] at hrun'
    exact hrun'.2.symm
  refine ⟨hsame, m, log, log', hrun, hrun', hlogs, ?_⟩
  rw [hlog, hlog']
  exact ⟨by decide +kernel, by decide +kernel, by decide +kernel, by decide +kernel⟩

end ModSyntax
