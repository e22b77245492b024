import ModSyntax.Proofs.Acceptance
import ModSyntax.Proofs.RoundTrip

/-!
# Formatting any text

Parsing a text and printing its module works for broken texts too, as long as both names of the
module are there: the printed text has the same module again. Formatting a text without diagnostics
gives a text without diagnostics (`print_parseSource`).
-/

namespace ModSyntax

/-! ## Sentences have no empty body -/

theorem Declaration.bodiesList_append (ds es : List Declaration) :
    Declaration.bodiesList (ds ++ es) = Declaration.bodiesList ds ++ Declaration.bodiesList es := by
  induction ds with
  | nil => rfl
  | cons d ds ih => simp [Declaration.bodiesList, ih]

/-- The bodies in the tree of a phrase; a sequence is a body itself. -/
def Phrase.bodies : (p : Phrase) → p.Tree → List (List Statement)
  | .compilationUnit, m => m.bodies
  | .block, b => b.bodies
  | .declarations, ds => Declaration.bodiesList ds
  | .declaration, ds => Declaration.bodiesList ds
  | .constDecls, ds => Declaration.bodiesList ds
  | .varDecls, ds => Declaration.bodiesList ds
  | .constant, d => d.bodies
  | .vars, d => d.bodies
  | .procedure, d => d.bodies
  | .sequence, ss => ss :: Statement.bodiesList ss
  | .moreStatements, ss => Statement.bodiesList ss
  | .statement, s => s.bodies
  | _, _ => []

/-- By the grammar, every body has a statement. -/
theorem Derives.bodies_ne_nil {p : Phrase} {w : List Symbol} {t : p.Tree} (h : Derives p w t) :
    ∀ body ∈ p.bodies t, body ≠ [] := by
  induction h with
  | compilationUnit _ _ _ ihb => exact ihb
  | block _ ihds => exact List.forall_mem_append.2 ⟨ihds, by simp [Statement.bodiesList]⟩
  | blockWithBody _ _ ihds ihss =>
    exact List.forall_mem_append.2 ⟨ihds, (List.forall_mem_cons.1 ihss).2⟩
  | declarations _ _ ihd ihds =>
    simp only [Phrase.bodies, Declaration.bodiesList_append]
    exact List.forall_mem_append.2 ⟨ihd, ihds⟩
  | constSection _ ih => exact ih
  | varSection _ ih => exact ih
  | procedureSection _ ih => simpa [Phrase.bodies, Declaration.bodiesList] using ih
  | constDecls _ _ ihd ihds => exact List.forall_mem_append.2 ⟨ihd, ihds⟩
  | varDecls _ _ ihd ihds => exact List.forall_mem_append.2 ⟨ihd, ihds⟩
  | procedure _ ih => exact ih
  | procedureWith _ _ _ ih => exact ih
  | sequence _ _ ihs ihss =>
    exact List.forall_mem_cons.2 ⟨List.cons_ne_nil _ _, List.forall_mem_append.2 ⟨ihs, ihss⟩⟩
  | moreStatements _ _ ihs ihss => exact List.forall_mem_append.2 ⟨ihs, ihss⟩
  | branch _ _ _ ihss => exact ihss
  | branchElse _ _ _ _ ihss ihts => exact List.forall_mem_append.2 ⟨ihss, ihts⟩
  | loop _ _ _ ihss => exact ihss
  | _ => exact fun _ hbody => nomatch hbody

/-- The names of a module stand in its sentence. -/
theorem Sentence.mem_names {word : List Symbol} {m : Module} (h : Sentence word m) :
    .identifier m.name ∈ word ∧ .identifier m.endName ∈ word := by
  cases h
  simp [Symbol.identifier]

/-! ## Printing what is made of a text -/

theorem isIdentifier_ne_empty {n : String} (h : isIdentifier n = true) : n ≠ "" := by
  rintro rfl
  exact absurd h (by decide)

namespace Module.Salvaged

variable {m : Module}

/-- A module whose names are there has proper parts only. -/
theorem parts_proper (h : m.Salvaged) (hname : m.name ≠ "") (hend : m.endName ≠ "") :
    ∀ p ∈ m.parts, p.Proper :=
  List.forall_mem_cons.2 ⟨h.name.resolve_left hname,
    List.forall_mem_append.2 ⟨h.imports, List.forall_mem_append.2 ⟨h.block,
      List.forall_mem_singleton.2 (h.endName.resolve_left hend)⟩⟩⟩

/-- A name that is no identifier can only be missing. -/
theorem eq_empty_of_mem_parts (h : m.Salvaged) {n : String} (hmem : .name n ∈ m.parts)
    (hn : isIdentifier n = false) : n = "" := by
  have hproper {ps : List Part} (hps : ∀ p ∈ ps, p.Proper) : .name n ∉ ps :=
    fun hmem => absurd (hps _ hmem) (Bool.eq_false_iff.1 hn)
  simp only [parts, List.mem_cons, List.mem_append, hproper h.imports, hproper h.block,
    List.not_mem_nil, or_false, false_or, Part.name.injEq] at hmem
  rcases hmem with rfl | rfl
  · exact h.name.resolve_right (Bool.eq_false_iff.1 hn)
  · exact h.endName.resolve_right (Bool.eq_false_iff.1 hn)

theorem exists_print_iff (h : m.Salvaged) :
    (∃ text, m.print = .ok text) ↔ m.name ≠ "" ∧ m.endName ≠ "" := by
  rw [m.checks.exists_ok_iff]
  constructor
  · intro hnames
    exact ⟨isIdentifier_ne_empty (hnames m.name (by simp [parts])),
      isIdentifier_ne_empty (hnames m.endName (by simp [parts]))⟩
  · rintro ⟨hname, hend⟩ n hn
    exact h.parts_proper hname hend _ hn

/-- Where printing fails, it is for a name that is missing. -/
theorem print_eq_error (h : m.Salvaged) (hprint : ¬∃ text, m.print = .ok text) :
    m.print = .error ⟨""⟩ := by
  cases hm : m.print with
  | ok text => exact absurd ⟨text, hm⟩ hprint
  | error e =>
    obtain ⟨hmem, hn⟩ := m.checks.of_error hm
    have hempty := h.eq_empty_of_mem_parts hmem hn
    exact congrArg Except.error (congrArg InvalidIdentifier.mk hempty)

end Module.Salvaged

/-! ## Texts without diagnostics -/

/-- The symbols of a text without diagnostics are a sentence. -/
theorem sentence_of_parseSource {source : String} (h : (parseSource source).2 = []) :
    Sentence (TokenStream.ofTokens (tokenize source).1).symbols (parseSource source).1 := by
  rw [parseSource_eq] at h ⊢
  obtain ⟨-, hparser⟩ := List.append_eq_nil_iff.1 (Diagnostic.inSourceOrder_eq_nil_iff.1 h)
  have hreports := parserDiagnostics_eq_nil_iff.1 hparser
  exact (Rule.run_compilationUnit_iff_sentence (TokenStream.kind_ne_eof _) _).1 ⟨rfl, hreports⟩

/-- A text without diagnostics has both names of its module. -/
theorem names_ne_empty_of_parseSource {source : String} (h : (parseSource source).2 = []) :
    (parseSource source).1.name ≠ "" ∧ (parseSource source).1.endName ≠ "" := by
  obtain ⟨hname, hend⟩ := (sentence_of_parseSource h).mem_names
  exact ⟨isIdentifier_ne_empty (written_of_mem_symbols _ hname).isIdentifier,
    isIdentifier_ne_empty (written_of_mem_symbols _ hend).isIdentifier⟩

/-- The module of any text can be printed exactly if both of its names are there, and is refused for
a missing name otherwise. The printed text has the same module, so it is printed the same again; and
if the first text had no diagnostics, there is a printed text, and it has none. -/
theorem print_parseSource (source : String) :
    ((∃ text, (parseSource source).1.print = .ok text) ↔
      (parseSource source).1.name ≠ "" ∧ (parseSource source).1.endName ≠ "") ∧
    (¬((parseSource source).1.name ≠ "" ∧ (parseSource source).1.endName ≠ "") →
      (parseSource source).1.print = .error ⟨""⟩) ∧
    (∀ text, (parseSource source).1.print = .ok text →
      (parseSource text).1 = (parseSource source).1 ∧ (parseSource text).1.print = .ok text) ∧
    ((parseSource source).2 = [] →
      ∃ text, (parseSource source).1.print = .ok text ∧ (parseSource text).2 = []) := by
  have hsalvaged := salvaged_parseSource source
  have hiff := hsalvaged.exists_print_iff
  have hagain : ∀ text, (parseSource source).1.print = .ok text →
      (parseSource text).1 = (parseSource source).1 ∧
        (parseSource text).2.length = (parseSource source).1.bodies.countP List.isEmpty := by
    intro text htext
    obtain ⟨hname, hend⟩ := hiff.1 ⟨text, htext⟩
    exact Module.parseSource_print htext (hsalvaged.parts_proper hname hend)
  refine ⟨hiff, fun hnames => ?_, fun text htext => ?_, fun hclean => ?_⟩
  · exact hsalvaged.print_eq_error fun hprint => hnames (hiff.1 hprint)
  · rw [(hagain text htext).1]
    exact ⟨rfl, htext⟩
  · obtain ⟨text, htext⟩ := hiff.2 (names_ne_empty_of_parseSource hclean)
    have hbodies := (sentence_of_parseSource hclean).bodies_ne_nil
    refine ⟨text, htext, List.length_eq_zero_iff.1 ?_⟩
    rw [(hagain text htext).2, List.countP_eq_zero]
    exact fun body hbody hempty => hbodies body hbody (List.isEmpty_iff.1 hempty)

/-- A text without an expression in an assignment, a text that ends without a name, and one without
mistakes. -/
theorem print_parseSource_broken :
    let broken := "MODULE M; BEGIN x := ; y END M."
    let unnamed := "MODULE M; BEGIN y END"
    let clean := "MODULE M; BEGIN IF x THEN y; z END END M."
    (parseSource broken).2 ≠ [] ∧
    (∃ text, (parseSource broken).1.print = .ok text ∧
      (parseSource text).1 = (parseSource broken).1) ∧
    (parseSource unnamed).1.print = .error ⟨""⟩ ∧
    ∃ text, (parseSource clean).1.print = .ok text ∧ (parseSource text).2 = [] := by
  intro broken unnamed clean
  obtain ⟨hiff, -, hagain, -⟩ := print_parseSource broken
  obtain ⟨text, htext⟩ := hiff.2 (by decide +kernel)
  exact ⟨by decide +kernel, ⟨text, htext, (hagain text htext).1⟩,
    (print_parseSource unnamed).2.1 (by decide +kernel),
    (print_parseSource clean).2.2.2 (by decide +kernel)⟩

end ModSyntax
