import ModSyntax.Proofs.Completeness
import ModSyntax.Proofs.Soundness.Module
import ModSyntax.Proofs.Stream

/-!
# The parser accepts exactly its grammar

A list of tokens is parsed without a diagnostic exactly when the tokens before the first end of
input are a sentence of the grammar; the module is then the tree of the sentence
(`parseTokens_eq_nil_iff_sentence`). Since the parser gives one tree, a sentence has one.
-/

namespace ModSyntax

/-! ## Diagnostics come from reports -/

theorem Report.firstPerSymbol_eq_nil_iff {rs : List Report} :
    Report.firstPerSymbol rs = [] ↔ rs = [] := by
  cases rs <;> simp [Report.firstPerSymbol]

theorem Diagnostic.inSourceOrder_eq_nil_iff {ds : List Diagnostic} :
    Diagnostic.inSourceOrder ds = [] ↔ ds = [] := by
  rw [inSourceOrder, Position.sortOn, ← List.length_eq_zero_iff, List.length_mergeSort,
    List.length_eq_zero_iff]

theorem parserDiagnostics_eq_nil_iff {ts : List Token} :
    parserDiagnostics ts = [] ↔
      (Rule.compilationUnit.run (.start (TokenStream.ofTokens ts).symbols)).reports = [] := by
  rw [parserDiagnostics, List.map_eq_nil_iff, TokenStream.parse, Report.firstPerSymbol_eq_nil_iff]

/-! ## Sentences -/

/-- On a sentence the parser has nothing to report. -/
theorem Sentence.run_eq {word : List Symbol} {m : Module} (h : Sentence word m) :
    Rule.compilationUnit.run (.start word) = ⟨m, ⟨[], word.length⟩, []⟩ := by
  have hrun := Rule.readsPhrase_of_derives h [] 0 (by simp)
  rwa [List.append_nil, Nat.zero_add] at hrun

namespace Rule

open ModSyntax.Parser

theorem kind_next_fullStop {c : Cursor} (h : (fullStop.run c).reports = []) :
    (fullStop.run c).next.kind = .eof := by
  by_cases hc : c.kind = .period <;> by_cases hnext : c.next.kind = .eof <;>
    simp_all [fullStop, expect]

/-- Without a report, nothing follows a module. -/
theorem kind_next_compilationUnit {c : Cursor} (h : (compilationUnit.run c).reports = []) :
    (compilationUnit.run c).next.kind = .eof := by
  simp only [compilationUnit, Parser.run_bind, Parser.run_pure, List.append_eq_nil_iff] at h ⊢
  exact kind_next_fullStop h.2.2.2.2.1

/-- On symbols before the end of the input, the parser has nothing to report exactly if they are a
sentence with the tree that it gives. -/
theorem run_compilationUnit_iff_sentence {word : List Symbol} (hword : ∀ s ∈ word, s.kind ≠ .eof)
    (m : Module) :
    (compilationUnit.run (.start word)).value = m ∧
      (compilationUnit.run (.start word)).reports = [] ↔ Sentence word m := by
  constructor
  · rintro ⟨rfl, hreports⟩
    obtain ⟨w, hw, hderives⟩ := soundAt_compilationUnit (.start word) hreports
    change word = w ++ _ at hw
    have hend := kind_next_compilationUnit hreports
    have hnil : (compilationUnit.run (.start word)).next.rest = [] := by
      cases hrest : (compilationUnit.run (.start word)).next.rest with
      | nil => rfl
      | cons s rest =>
        have hs : s ∈ word := by
          rw [hw, hrest]
          simp
        exact absurd (by simpa [Cursor.kind, hrest] using hend) (hword s hs)
    rw [hnil, List.append_nil] at hw
    rwa [← hw] at hderives
  · intro h
    rw [h.run_eq]
    exact ⟨rfl, rfl⟩

end Rule

/-- A sentence has one tree. -/
theorem Sentence.unique {word : List Symbol} {m m' : Module} (h : Sentence word m)
    (h' : Sentence word m') : m = m' := congrArg Outcome.value (h.run_eq.symm.trans h'.run_eq)

/-- A list of tokens is parsed without a diagnostic exactly when the tokens before the first end of
input are a sentence; the module is then the one tree of the sentence. -/
theorem parseTokens_eq_nil_iff_sentence :
    (∀ (ts : List Token) (m : Module), parseTokens ts = (m, []) ↔
      Sentence ((ts.takeWhile (·.kind ≠ .eof)).map Token.toSymbol) m) ∧
    ∀ (word : List Symbol) (m m' : Module), Sentence word m → Sentence word m' → m = m' := by
  refine ⟨fun ts m => ?_, fun word m m' => Sentence.unique⟩
  rw [parseTokens, Prod.mk.injEq, Diagnostic.inSourceOrder_eq_nil_iff, parserDiagnostics_eq_nil_iff]
  exact Rule.run_compilationUnit_iff_sentence (TokenStream.kind_ne_eof ts) m

/-- A module with an empty `VAR` section and a constant; what stands behind the end is not read. -/
theorem parseTokens_constant_module :
    let word : List Symbol :=
      [⟨.kwModule, "MODULE"⟩, ⟨.identifier, "M"⟩, ⟨.semicolon, ";"⟩, ⟨.kwVar, "VAR"⟩,
        ⟨.kwConst, "CONST"⟩, ⟨.identifier, "a"⟩, ⟨.equal, "="⟩, ⟨.integer, "+7"⟩, ⟨.semicolon, ";"⟩,
        ⟨.kwEnd, "END"⟩, ⟨.identifier, "M"⟩, ⟨.period, "."⟩]
    let m : Module :=
      ⟨"M", [], ⟨[.constant "a" (.simple ⟨none, ⟨.int 7, []⟩, []⟩)], []⟩, "M"⟩
    Sentence word m ∧
      parseTokens ((word ++ [Symbol.ofKind .eof, Symbol.ofKind .kwVar]).map fun s => ⟨s, .start⟩) =
        (m, []) ∧
      ∀ m', Sentence word m' → m = m' := by
  intro word m
  have hterm : Derives .term [⟨.integer, "+7"⟩] ⟨.int 7, []⟩ :=
    .term (u := [_]) (v := []) (.int (by decide)) .noMoreFactors
  have hexpr : Derives .expr [⟨.integer, "+7"⟩] (.simple ⟨none, ⟨.int 7, []⟩, []⟩) :=
    .simple (.unsigned (u := [_]) (v := []) hterm .noMoreTerms)
  have hconst : Derives .declaration
      [⟨.kwConst, "CONST"⟩, ⟨.identifier, "a"⟩, ⟨.equal, "="⟩, ⟨.integer, "+7"⟩, ⟨.semicolon, ";"⟩]
      [.constant "a" (.simple ⟨none, ⟨.int 7, []⟩, []⟩)] :=
    .constSection (.constDecls (u := [_, _, _]) (.constant hexpr) .noConstDecls)
  have hsections := Derives.declarations (.varSection (l := "VAR") .noVarDecls)
    (.declarations hconst .noDeclarations)
  have hm : Sentence word m := .compilationUnit .noImports (.block hsections)
  exact ⟨hm, (parseTokens_eq_nil_iff_sentence.1 _ m).2 hm,
    fun m' => parseTokens_eq_nil_iff_sentence.2 word m m' hm⟩

end ModSyntax
