import ModSyntax.Proofs.Print.Spelling

/-!
# Printed modules are scanned as their symbols

The text of a module is made of the symbols of the module and of gaps, so scanning finds just these
symbols, whether or not they make a sentence (`tokenize_print`).
-/

namespace ModSyntax

/-- The text of a module is scanned without a fault, and its tokens are the symbols of the module
and the end. -/
theorem tokenize_print (m : Module) (text : String) (h : m.print = .ok text) :
    ∃ tokens stop, tokens.map Token.toSymbol = m.symbols ∧
      tokenize text = (tokens ++ [.eof stop], []) := by
  obtain ⟨l, hl, rfl⟩ := map_eq_ok.1 h
  have hspells := Module.spells hl
  obtain ⟨tokens, stop, hsymbols, htokenize⟩ := (hspells.legible [] trivial).tokenize_text
  exact ⟨tokens, stop, hsymbols.trans hspells.symbols_eq, htokenize⟩

/-- No text is parsed as this module: it imports nothing by name, declares no variable, and has a
negative literal and two empty branches. -/
theorem tokenize_print_odd :
    let m : Module :=
      ⟨"M", [⟨some "IO", []⟩],
        ⟨[.vars [] ⟨["INTEGER"]⟩, .procedure ⟨"P", none, ⟨[], []⟩, "Q"⟩],
          [.branch (.simple ⟨some .minus, ⟨.int (-7), []⟩, []⟩) [] (some []),
            .loop (.simple ⟨none, ⟨.int 0, []⟩, []⟩) [.leave none]]⟩, "N"⟩
    let text := "MODULE M;\nFROM IO IMPORT ;\n  VAR : INTEGER;\n  PROCEDURE P;\n  END Q;\n" ++
      "BEGIN\n  IF --7 THEN\n  ELSE\n  END;\n  WHILE 0 DO\n    RETURN\n  END\nEND N.\n"
    m.print = .ok text ∧ ∃ tokens stop,
      tokens.map Token.toSymbol =
        [.ofKind .kwModule, .identifier "M", .ofKind .semicolon,
          .ofKind .kwFrom, .identifier "IO", .ofKind .kwImport, .ofKind .semicolon,
          .ofKind .kwVar, .ofKind .colon, .identifier "INTEGER", .ofKind .semicolon,
          .ofKind .kwProcedure, .identifier "P", .ofKind .semicolon,
          .ofKind .kwEnd, .identifier "Q", .ofKind .semicolon, .ofKind .kwBegin,
          .ofKind .kwIf, .ofKind .minus, .ofKind .minus, ⟨.integer, "7"⟩, .ofKind .kwThen,
          .ofKind .kwElse, .ofKind .kwEnd, .ofKind .semicolon,
          .ofKind .kwWhile, ⟨.integer, "0"⟩, .ofKind .kwDo, .ofKind .kwReturn, .ofKind .kwEnd,
          .ofKind .kwEnd, .identifier "N", .ofKind .period] ∧
      tokenize text = (tokens ++ [.eof stop], []) := by
  intro m text
  have h : m.print = .ok text := by decide +kernel
  exact ⟨h, tokenize_print m text h⟩

end ModSyntax
