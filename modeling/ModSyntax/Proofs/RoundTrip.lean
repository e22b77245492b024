import ModSyntax.Proofs.Print.Checks
import ModSyntax.Proofs.Print.Spelling
import ModSyntax.Proofs.Reading.Canonical
import ModSyntax.Proofs.Reading.Yield

/-!
# Printing and parsing again

A module that can be printed is the module of its text exactly if none of its literals is negative
and none of its lists of names is empty (`parseSource_print_iff`). Its text then has a diagnostic
for each empty body, and no other.
-/

namespace ModSyntax

namespace Module

variable {m : Module} {text : String}

/-- The text of a module is scanned as the symbols of the module. -/
theorem scan_print (h : m.print = .ok text) :
    (TokenStream.ofTokens (tokenize text).1).symbols = m.symbols ∧ (tokenize text).2 = [] := by
  obtain ⟨l, hl, rfl⟩ := map_eq_ok.1 h
  have hspells := Module.spells hl
  have hlegible := hspells.legible [] trivial
  obtain ⟨tokens, stop, hsymbols, htokenize⟩ := hlegible.tokenize_text
  have hbody : ∀ t ∈ tokens, (decide (t.kind ≠ .eof)) = true := by
    intro t ht
    have hwritten := hlegible.written t.toSymbol (hsymbols ▸ List.mem_map_of_mem ht)
    exact decide_eq_true hwritten.kind_ne_eof
  rw [htokenize]
  refine ⟨?_, rfl⟩
  rw [← hspells.symbols_eq, ← hsymbols, TokenStream.symbols, TokenStream.ofTokens,
    List.takeWhile_append_of_pos hbody]
  simp [Token.eof]

/-- A printed module is parsed from its own symbols, and only the parser finds something wrong. -/
theorem parseSource_eq_of_print (h : m.print = .ok text) :
    (parseSource text).1 = (Rule.compilationUnit.run (.start m.symbols)).value ∧
      (parseSource text).2.length =
        (Report.firstPerSymbol (Rule.compilationUnit.run (.start m.symbols)).reports).length := by
  obtain ⟨hsymbols, hfaults⟩ := scan_print h
  rw [parseSource_eq, hfaults]
  simp [Diagnostic.inSourceOrder, Position.sortOn, parserDiagnostics, TokenStream.parse, hsymbols]

/-- A module with proper parts is the module of its text, with a diagnostic for each empty body. -/
theorem parseSource_print (h : m.print = .ok text) (hm : ∀ p ∈ m.parts, p.Proper) :
    (parseSource text).1 = m ∧ (parseSource text).2.length = m.bodies.countP List.isEmpty := by
  obtain ⟨hvalue, hlength⟩ := parseSource_eq_of_print h
  obtain ⟨reports, hreads, hmarks⟩ := m.reads hm 0
  have hrun := hreads [] (by simp)
  rw [List.append_nil] at hrun
  rw [hvalue, hlength, Cursor.start, hrun]
  exact ⟨rfl, by rw [hmarks.firstPerSymbol_eq, hmarks.length]⟩

/-- The literals and the lists of names of a module are in its imports and its block. -/
theorem mem_parts_iff {p : Part} (hp : ∀ n, p ≠ .name n) :
    p ∈ m.parts ↔ p ∈ m.imports.flatMap Import.parts ∨ p ∈ m.block.parts := by
  simp [parts, hp]

/-- What is made of a text has no negative literal and no empty list of names. -/
theorem Salvaged.proper (h : m.Salvaged) {p : Part} (hp : ∀ n, p ≠ .name n) (hmem : p ∈ m.parts) :
    p.Proper := by
  rcases (mem_parts_iff hp).1 hmem with hmem | hmem
  · exact h.imports p hmem
  · exact h.block p hmem

/-- A module that can be printed has proper names, so its parts are proper if its literals and its
lists of names are. -/
theorem proper_of_print (h : m.print = .ok text)
    (hliteral : ∀ value, .literal value ∈ m.parts → 0 ≤ value.toInt)
    (hnames : .names [] ∉ m.parts) :
    ∀ p ∈ m.parts, p.Proper := by
  intro p hp
  cases p with
  | name n => exact m.checks.exists_ok_iff.1 ⟨text, h⟩ n hp
  | literal value => exact hliteral value hp
  | names ns => exact fun hns => hnames (hns ▸ hp)

end Module

/-- A module that can be printed is the module of its text exactly if it holds no negative literal
and no empty list of names. The diagnostics of the text then number the empty bodies of the module,
so there are none exactly if every body has a statement. -/
theorem parseSource_print_iff (m : Module) (text : String) (h : m.print = .ok text) :
    ((parseSource text).1 = m ↔
      (∀ value, .literal value ∈ m.parts → 0 ≤ value.toInt) ∧ .names [] ∉ m.parts) ∧
    ((parseSource text).1 = m →
      (parseSource text).2.length = m.bodies.countP List.isEmpty ∧
      ((parseSource text).2 = [] ↔ ∀ body ∈ m.bodies, body ≠ [])) := by
  have hparts : (parseSource text).1 = m →
      (∀ value, .literal value ∈ m.parts → 0 ≤ value.toInt) ∧ .names [] ∉ m.parts := by
    intro hm
    have hsalvaged := hm ▸ salvaged_parseSource text
    exact ⟨fun value hvalue => hsalvaged.proper (by simp) hvalue,
      fun hnames => hsalvaged.proper (by simp) hnames rfl⟩
  refine ⟨⟨hparts, fun ⟨hliteral, hnames⟩ => ?_⟩, fun hm => ?_⟩
  · exact (Module.parseSource_print h (Module.proper_of_print h hliteral hnames)).1
  · obtain ⟨hliteral, hnames⟩ := hparts hm
    have hlength := (Module.parseSource_print h (Module.proper_of_print h hliteral hnames)).2
    refine ⟨hlength, ?_⟩
    rw [← List.length_eq_zero_iff, hlength, List.countP_eq_zero]
    simp

/-- A branch without statements behind `THEN` is read back, with one diagnostic. -/
theorem parseSource_print_empty_branch :
    let m : Module :=
      ⟨"M", [⟨some "IO", ["put"]⟩],
        ⟨[.vars ["x"] ⟨["INTEGER"]⟩],
          [.branch (.simple ⟨some .minus, ⟨.int 1, []⟩, []⟩) [] (some [.bare ⟨["IO", "put"]⟩])]⟩, "M"⟩
    let text := "MODULE M;\nFROM IO IMPORT put;\n  VAR x: INTEGER;\nBEGIN\n  IF -1 THEN\n  ELSE\n" ++
      "    IO.put\n  END\nEND M.\n"
    m.print = .ok text ∧ (parseSource text).1 = m ∧ (parseSource text).2.length = 1 ∧
      (parseSource text).2 ≠ [] := by
  intro m text
  have h : m.print = .ok text := by decide +kernel
  obtain ⟨hiff, hdiagnostics⟩ := parseSource_print_iff m text h
  have hparts : m.parts = [.name "M", .names ["put"], .name "put", .name "IO", .names ["x"],
      .name "x", .name "INTEGER", .literal 1, .name "IO", .name "put", .name "M"] := by rfl
  have hm : (parseSource text).1 = m := by
    refine hiff.2 ⟨fun value hvalue => ?_, by rw [hparts]; decide⟩
    obtain rfl : value = 1 := by simpa [hparts] using hvalue
    decide
  obtain ⟨hlength, hclean⟩ := hdiagnostics hm
  exact ⟨h, hm, hlength, fun hnil => hclean.1 hnil [] (.head _) rfl⟩

end ModSyntax
