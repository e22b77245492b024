import ModSyntax.CommandLine
import ModSyntax.Proofs.Formatting

/-!
# The verdict on a file

The exit code of the program and what it writes to the error output are decided by what stands at
the path, whatever the flags are and however long it takes (`run_verdict`). A file is found well
formed exactly if its text has no diagnostics.

With `--pretty` the program goes on to print the module of a well-formed text. This does not fail:
such a module has both of its names, and every name that was read from a text can be printed.
-/

namespace ModSyntax

/-- The module of a text without diagnostics can be printed. -/
theorem exists_print_of_parseSource {source : String} (h : (parseSource source).2 = []) :
    ∃ text, (parseSource source).1.print = .ok text :=
  (salvaged_parseSource source).exists_print_iff.2 (names_ne_empty_of_parseSource h)

theorem Analysis.diagnostics_ofSource (source : String) :
    (ofSource source).diagnostics = (parseSource source).2 := by
  unfold ofSource
  generalize parseSource source = parsed
  rfl

theorem Analysis.unit_ofSource (source : String) :
    (ofSource source).unit = (parseSource source).1 := by
  unfold ofSource
  generalize parseSource source = parsed
  rfl

namespace CommandLine

/-- What is written of a text with diagnostics: a line for each of them, and then their number. -/
def complaints (path : String) (ds : List Diagnostic) : String :=
  String.join (ds.map fun d => path ++ ": " ++ d.text ++ "\n") ++
    ("Error: Syntax errors: " ++ toString ds.length ++ " diagnostic(s) reported\n")

/-- The exit code and the error output for what stands at the path. -/
def verdict (path : String) (entry : Entry) : Nat × String :=
  match sourceOf path entry with
  | .error e => (1, "Error: " ++ e.message ++ "\n")
  | .ok source =>
    if (parseSource source).2 = [] then (0, "") else (1, complaints path (parseSource source).2)

/-! ## What is written -/

theorem onLines_map {α : Type} (line : α → String) (xs : List α) :
    onLines (xs.map line) = String.join (xs.map fun x => line x ++ "\n") := by
  rw [onLines, List.map_map]
  rfl

theorem stderr_failed (stdout stderr : String) (e : Error) :
    (failed stdout stderr e).stderr = stderr ++ ("Error: " ++ e.message ++ "\n") := by
  simp [failed, onLines]

theorem message_syntaxErrors (n : Nat) : "Error: " ++ (Error.syntaxErrors n).message ++ "\n" =
    "Error: Syntax errors: " ++ toString n ++ " diagnostic(s) reported\n" := by
  have hmessage : (Error.syntaxErrors n).message =
      "Syntax errors: " ++ toString n ++ " diagnostic(s) reported" := rfl
  have hbefore : "Error: Syntax errors: " = "Error: " ++ "Syntax errors: " := by decide
  have hbehind : " diagnostic(s) reported\n" = " diagnostic(s) reported" ++ "\n" := by decide
  rw [hmessage, hbefore, hbehind]
  simp only [String.append_assoc]

/-! ## The run on a text -/

section

variable (o : Options) (source : String) (t : Times) {a : Analysis}

/-- A text with diagnostics is refused, with all of them. -/
theorem judge_of_diagnostics (h : a.diagnostics ≠ []) :
    (judge o source a t).exit = 1 ∧
      (judge o source a t).stderr = complaints o.path a.diagnostics := by
  unfold judge
  dsimp only
  rw [if_pos h]
  refine ⟨rfl, ?_⟩
  rw [stderr_failed, onLines_map, message_syntaxErrors, complaints]

/-- A text without diagnostics is accepted if its module can be printed; with `--pretty`, that is
what is shown. -/
theorem judge_of_clean {text : String} (h : a.diagnostics = []) (htext : a.unit.print = .ok text) :
    (judge o source a t).exit = 0 ∧ (judge o source a t).stderr = "" ∧
      (o.has .pretty = true →
        ∃ before behind, (judge o source a t).stdout = before ++ text ++ behind) := by
  unfold judge
  dsimp only
  rw [if_neg (not_not_intro h), htext]
  cases o.has .pretty with
  | false => simp
  | true => exact ⟨rfl, rfl, fun _ => ⟨_, _, String.append_assoc⟩⟩

end

/-! ## The run on what stands at a path -/

section

variable {o : Options} {entry : Entry} {source : String} (t : Times)

theorem run_of_error {e : Error} (h : sourceOf o.path entry = .error e) :
    (run o entry t).exit = 1 ∧ (run o entry t).stderr = "Error: " ++ e.message ++ "\n" := by
  unfold run
  rw [h]
  exact ⟨rfl, (stderr_failed _ "" e).trans String.empty_append⟩

/-- On a text that was read, the run is that on the text; it has an opening if one is asked for. -/
theorem run_of_source (h : sourceOf o.path entry = .ok source) :
    (run o entry t).exit = (judge o source (.ofSource source) t).exit ∧
      (run o entry t).stderr = (judge o source (.ofSource source) t).stderr ∧
      ∃ opening,
        (run o entry t).stdout = opening ++ (judge o source (.ofSource source) t).stdout := by
  unfold run
  rw [h]
  exact ⟨rfl, rfl, _, rfl⟩

theorem run_of_diagnostics (h : sourceOf o.path entry = .ok source)
    (hds : (parseSource source).2 ≠ []) :
    (run o entry t).exit = 1 ∧
      (run o entry t).stderr = complaints o.path (parseSource source).2 := by
  obtain ⟨hexit, hstderr, -⟩ := run_of_source t h
  rw [← Analysis.diagnostics_ofSource] at hds ⊢
  rw [hexit, hstderr]
  exact judge_of_diagnostics o source t hds

theorem run_of_clean (h : sourceOf o.path entry = .ok source) (hds : (parseSource source).2 = []) :
    (run o entry t).exit = 0 ∧ (run o entry t).stderr = "" ∧
      ∃ text, (parseSource source).1.print = .ok text ∧ (o.has .pretty = true →
        ∃ before behind, (run o entry t).stdout = before ++ text ++ behind) := by
  obtain ⟨text, htext⟩ := exists_print_of_parseSource hds
  obtain ⟨hexit, hstderr, opening, hstdout⟩ := run_of_source t h
  rw [← Analysis.diagnostics_ofSource] at hds
  rw [← Analysis.unit_ofSource] at htext ⊢
  obtain ⟨hexit', hstderr', hshown⟩ := judge_of_clean o source t hds htext
  refine ⟨hexit.trans hexit', hstderr.trans hstderr', text, htext, fun hpretty => ?_⟩
  obtain ⟨before, behind, hshown⟩ := hshown hpretty
  exact ⟨opening ++ before, behind, by rw [hstdout, hshown]; simp only [String.append_assoc]⟩

/-- The flags and the times are left out of account. -/
theorem run_eq_verdict (o : Options) (entry : Entry) (t : Times) :
    ((run o entry t).exit, (run o entry t).stderr) = verdict o.path entry := by
  unfold verdict
  cases h : sourceOf o.path entry with
  | error e =>
    obtain ⟨hexit, hstderr⟩ := run_of_error t h
    rw [hexit, hstderr]
  | ok source =>
    dsimp only
    split
    · next hds =>
      obtain ⟨hexit, hstderr, -⟩ := run_of_clean t h hds
      rw [hexit, hstderr]
    · next hds =>
      obtain ⟨hexit, hstderr⟩ := run_of_diagnostics t h hds
      rw [hexit, hstderr]

end

theorem sourceOf_file {path source : String} {bytes : ByteArray}
    (hpath : extension? path = some "mod") (hbytes : String.fromUTF8? bytes = some source) :
    sourceOf path (.file bytes) = .ok source := by
  simp [sourceOf, readSource, sourceExtension, hpath, hbytes]

/-- Whatever is at the path, the exit code and the error output are the same as without any flag. On
the text of a source file the exit code is zero exactly if the text has no diagnostics; if it has,
they are written line by line in the order of the text, and then how many they are. If it has none,
its module can be printed, and with `--pretty` it is. -/
theorem run_verdict (o : Options) (entry : Entry) (t t' : Times) :
    (run o entry t).exit = (run ⟨o.path, []⟩ entry t').exit ∧
    (run o entry t).stderr = (run ⟨o.path, []⟩ entry t').stderr ∧
    ∀ bytes source, entry = .file bytes → extension? o.path = some "mod" →
      String.fromUTF8? bytes = some source →
      ((run o entry t).exit = 0 ↔ (parseSource source).2 = []) ∧
      ((parseSource source).2 ≠ [] → (run o entry t).stderr =
        String.join ((parseSource source).2.map fun d => o.path ++ ": " ++ toString d ++ "\n") ++
          ("Error: Syntax errors: " ++ toString (parseSource source).2.length ++
            " diagnostic(s) reported\n")) ∧
      ((parseSource source).2 = [] → (run o entry t).stderr = "" ∧
        ∃ text, (parseSource source).1.print = .ok text ∧ (o.has .pretty = true →
          ∃ before behind, (run o entry t).stdout = before ++ text ++ behind)) := by
  have hsame : ((run o entry t).exit, (run o entry t).stderr) =
      ((run ⟨o.path, []⟩ entry t').exit, (run ⟨o.path, []⟩ entry t').stderr) := by
    rw [run_eq_verdict, run_eq_verdict]
  obtain ⟨hexit, hstderr⟩ := Prod.mk.inj hsame
  refine ⟨hexit, hstderr, ?_⟩
  rintro bytes source rfl hpath hbytes
  have hsource := sourceOf_file hpath hbytes
  refine ⟨⟨fun hzero => ?_, fun hds => (run_of_clean t hsource hds).1⟩,
    fun hds => (run_of_diagnostics t hsource hds).2, fun hds => (run_of_clean t hsource hds).2⟩
  by_contra hds
  rw [(run_of_diagnostics t hsource hds).1] at hzero
  cases hzero

/-- With all flags, a file that lacks an expression and one that lacks nothing. -/
theorem run_verdict_all_flags :
    let o : Options := ⟨"lib/demo.mod", [.tokens, .showAst, .pretty, .verbose, .timing]⟩
    let broken := "MODULE M; BEGIN x := END M."
    let clean := "MODULE M; BEGIN x := y END M."
    let t : Times := ⟨4, 7, 12⟩
    extension? o.path = some "mod" ∧ String.fromUTF8? broken.toUTF8 = some broken ∧
      String.fromUTF8? clean.toUTF8 = some clean ∧
      (run o (.file broken.toUTF8) t).stderr =
        "lib/demo.mod: 1:22: unexpected 'END' in factor, expected one of 'IntegerLiteral', " ++
          "'(', 'NOT', 'Identifier'\nError: Syntax errors: 1 diagnostic(s) reported\n" ∧
      (run o (.file broken.toUTF8) t).exit = (run ⟨o.path, []⟩ (.file broken.toUTF8) t).exit ∧
      (run o (.file broken.toUTF8) t).exit ≠ 0 ∧
      (run o (.file clean.toUTF8) t).exit = 0 ∧
      ∃ text, (parseSource clean).1.print = .ok text ∧
        ∃ before behind, (run o (.file clean.toUTF8) t).stdout = before ++ text ++ behind := by
  intro o broken clean t
  have hpath : extension? o.path = some "mod" := by decide
  have hbroken : String.fromUTF8? broken.toUTF8 = some broken := by decide +kernel
  have hclean : String.fromUTF8? clean.toUTF8 = some clean := by decide +kernel
  have hds : (parseSource broken).2 = [⟨⟨1, 22⟩, .unexpected "END" "factor"
      ["IntegerLiteral", "(", "NOT", "Identifier"]⟩] := by decide +kernel
  have hnone : (parseSource clean).2 = [] := by decide +kernel
  obtain ⟨hexit, -, hfile⟩ := run_verdict o (.file broken.toUTF8) t t
  obtain ⟨hzero, hstderr, -⟩ := hfile _ broken rfl hpath hbroken
  obtain ⟨-, -, hfile⟩ := run_verdict o (.file clean.toUTF8) t t
  obtain ⟨hzero', -, hprint⟩ := hfile _ clean rfl hpath hclean
  obtain ⟨-, text, htext, hshown⟩ := hprint hnone
  rw [hds] at hzero hstderr
  refine ⟨hpath, hbroken, hclean, (hstderr (by simp)).trans ?_, hexit, fun h => ?_,
    hzero'.2 hnone, text, htext, hshown rfl⟩
  · decide +kernel
  · simpa using hzero.1 h

end CommandLine

end ModSyntax
