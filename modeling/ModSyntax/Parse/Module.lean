import ModSyntax.Error
import ModSyntax.Parse.Declaration
import ModSyntax.Scan.Item

/-!
# Parsing modules

`parseTokens` and `parseSource` always give a module: what is broken is left out of it. A text is
well formed exactly when it is parsed without a diagnostic.
-/

namespace ModSyntax

namespace Rule

open ModSyntax.Parser

/-- `import = [ "FROM" ident ] "IMPORT" identList ";"`, up to the semicolon. -/
def importNames : Rule Import := do
  let source ← after? .kwFrom (identifier .imports)
  discard <| expect .kwImport .imports
  return ⟨source, ← identifierList .imports⟩

/-- One import; a broken one is left with the semicolon behind it. -/
def importItem : Parser (Option Import) := do
  match ← importNames.attempt with
  | some found =>
    terminate .semicolon .imports importSync
    return some found
  | none =>
    skipUntil importSync
    discard <| accept .semicolon
    return none

/-- One import, if there is one; `more` reads those behind it. -/
def importsStep (more : Parser (List Import)) : Parser (List Import) := do
  if (← kind) ∈ [.kwFrom, .kwImport] then
    return (← importItem).toList ++ (← more)
  else
    return []

/-- The imports, as long as there are any. -/
def imports : Parser (List Import) := Parser.fix [] importsStep

/-- Takes the word `MODULE`. If it is missing, it is looked for in the rest of the heading. -/
def moduleKeyword : Parser Bool := do
  if ← accept .kwModule then
    return true
  else
    unexpected .compilationUnit [.kwModule]
    skipUntil headingSync
    if ← accept .kwModule then
      return true
    else
      discard <| accept .semicolon
      return false

/-- The heading of a module; a name that is missing is left empty. -/
def heading : Parser String := do
  if ← moduleKeyword then
    let name ← (identifier .compilationUnit).attempt
    terminate .semicolon .compilationUnit headingSync
    return name.getD ""
  else
    return ""

/-- The full stop behind a module, and then nothing more. -/
def fullStop : Parser Unit := do
  if (← (expect .period .compilationUnit).attempt).isSome ∧ (← kind) ≠ .eof then
    unexpected .compilationUnit [.eof]

/-- `compilationUnit = "MODULE" ident ";" { import } block ident "."`, up to the end of the input. -/
def compilationUnit : Parser Module := do
  let name ← heading
  let imports ← imports
  let block ← block
  let endName ← (identifier .compilationUnit).attempt
  fullStop
  return ⟨name, imports, block, endName.getD ""⟩

end Rule

/-- The module that a stream of tokens makes, and the reports on it in the order they are made. -/
def TokenStream.parse (ts : TokenStream) : Module × List Report :=
  let outcome := Rule.compilationUnit.run (.start ts.symbols)
  (outcome.value, Report.firstPerSymbol outcome.reports)

/-- The diagnostics of parsing a list of tokens, in the order they are reported. -/
def parserDiagnostics (ts : List Token) : List Diagnostic :=
  (TokenStream.ofTokens ts).parse.2.map (Report.diagnostic (.ofTokens ts))

/-- Parses a list of tokens. The diagnostics are in the order of the text. -/
def parseTokens (ts : List Token) : Module × List Diagnostic :=
  ((TokenStream.ofTokens ts).parse.1, Diagnostic.inSourceOrder (parserDiagnostics ts))

/-- Scans and parses a text. The diagnostics are in the order of the text. -/
def parseSource (source : String) : Module × List Diagnostic :=
  let (tokens, faults) := tokenize source
  ((TokenStream.ofTokens tokens).parse.1,
    Diagnostic.inSourceOrder (faults ++ parserDiagnostics tokens))

theorem parseSource_eq (source : String) :
    parseSource source =
      ((TokenStream.ofTokens (tokenize source).1).parse.1,
        Diagnostic.inSourceOrder
          ((tokenize source).2 ++ parserDiagnostics (tokenize source).1)) := by
  unfold parseSource
  generalize tokenize source = scanned
  rfl

/-- The module of a text that has no diagnostics. -/
def parseStrict (source : String) : Except Error Module :=
  match parseSource source with
  | (m, []) => .ok m
  | (_, ds) => .error (.syntaxErrors ds.length)

end ModSyntax
