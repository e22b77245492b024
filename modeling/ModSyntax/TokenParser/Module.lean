import ModSyntax.TokenParser.Statement
import ModSyntax.Tree.Module

/-!
# Declarations and modules on tokens
-/

namespace ModSyntax.TokenParser

open ModSyntax.Parser (declarationSync importSync headingSync parameterSync sequenceEnd)

/-! ## Declarations -/

/-- `constDecl = ident "=" expression` -/
def constant : TokenRule Declaration := do
  let name ← identifier .constant
  discard <| expect .equal .constant
  return .constant name (← expr)

/-- `varDecl = identList ":" qualident` -/
def vars : TokenRule Declaration := do
  let names ← identifierList .vars
  discard <| expect .colon .vars
  return .vars names (← qualifiedName .vars)

/-- The entries of a section, as long as an identifier begins one. -/
def entries (rule : Construct) (entry : TokenRule Declaration) :
    TokenParser (List Declaration) :=
  fix fun more => do
    if (← kind) = .identifier then
      match ← entry.run with
      | some d =>
        endEntry rule
        return d :: (← more)
      | none =>
        recoverDeclaration
        more
    else
      return []

/-- `formalParameter = [ "VAR" ] identList ":" qualident` -/
def parameter : TokenRule Parameter := do
  let byReference ← eat .kwVar
  let names ← identifierList .parameter
  discard <| expect .colon .parameter
  return ⟨byReference, names, ← qualifiedName .parameter⟩

/-- Parameters with a semicolon between them; no value if one of them is broken. -/
def parameterList : TokenParser (Option (List Parameter)) :=
  fix fun more => do
    let found ← parameter.run
    if found.isNone then
      skipUntil parameterSync
    if ← eat .semicolon then
      let others ← more
      return found.bind fun p => others.map (p :: ·)
    else
      return found.map ([·])

/-- What stands between the brackets. -/
def parameterItems : TokenParser (Option (List Parameter)) := do
  if (← kind) ∈ [.kwVar, .identifier] then
    parameterList
  else
    return some []

/-- `formalParameters = "(" [ formalParameter { ";" formalParameter } ] ")" [ ":" qualident ]`, at
the bracket. If the bracket is not closed or the type is broken, the whole heading is left. -/
def parameters : TokenParser (Option Parameters) := do
  discard advance
  let params ← parameterItems
  if (← (expect .rparen .parameters).run).isNone then
    skipUntil declarationSync
    return none
  else if ← eat .colon then
    match ← (qualifiedName .parameters).run with
    | some result => return params.map fun params => ⟨params, some result⟩
    | none =>
      skipUntil declarationSync
      return none
  else
    return params.map fun params => ⟨params, none⟩

/-- The parameters, if a bracket opens them. -/
def parameters? : TokenParser (Option (Option Parameters)) := do
  if (← kind) = .lparen then
    return (← parameters).map some
  else
    return some none

/-- The statements of a block, if it has a body. -/
def body : TokenParser (List Statement) := do
  if ← eat .kwBegin then
    sequence sequenceEnd
  else
    return []

/-- `procedureDecl = "PROCEDURE" ident [ formalParameters ] ";" block ident`. Heading, body and
closing name are read whatever is wrong with any of them. -/
def procedureOf (block : TokenParser Block) : TokenParser (Option Declaration) := do
  discard advance
  let name ← (identifier .procedure).run
  let params ← parameters?
  require .semicolon .procedure
  let body ← block
  let endName ← (identifier .procedure).run
  match name, params, endName with
  | some name, some params, some endName => return some (.procedure ⟨name, params, body, endName⟩)
  | _, _, _ => return none

/-- `declaration = "CONST" { constDecl ";" } | "VAR" { varDecl ";" } | procedureDecl ";"`, as many as
there are. -/
def declarationsOf (block : TokenParser Block) : TokenParser (List Declaration) :=
  fix fun more => do
    match ← kind with
    | .kwConst =>
      discard advance
      let found ← entries .constant constant
      return found ++ (← more)
    | .kwVar =>
      discard advance
      let found ← entries .vars vars
      return found ++ (← more)
    | .kwProcedure =>
      let found ← procedureOf block
      endEntry .procedure
      return found.toList ++ (← more)
    | .kwBegin | .kwEnd | .eof => return []
    | _ =>
      reportUnexpected .block [.kwConst, .kwVar, .kwProcedure, .kwBegin, .kwEnd]
      recoverDeclaration
      more

/-- One block; `block` reads the bodies of the procedures in it. -/
def blockOf (block : TokenParser Block) : TokenParser Block := do
  let declarations ← declarationsOf block
  let statements ← body
  terminate .kwEnd .block sequenceEnd
  return ⟨declarations, statements⟩

/-- `block = { declaration } [ "BEGIN" statementSequence ] "END"` -/
def block : TokenParser Block := fix blockOf

/-! ## Modules -/

/-- `[ "FROM" ident ]` -/
def importSource : TokenRule (Option String) := do
  if ← eat .kwFrom then
    return some (← identifier .imports)
  else
    return none

/-- `import = [ "FROM" ident ] "IMPORT" identList ";"`, up to the semicolon. -/
def importNames : TokenRule Import := do
  let source ← importSource
  discard <| expect .kwImport .imports
  return ⟨source, ← identifierList .imports⟩

/-- One import; a broken one is left with the semicolon behind it. -/
def importItem : TokenParser (Option Import) := do
  match ← importNames.run with
  | some found =>
    terminate .semicolon .imports importSync
    return some found
  | none =>
    skipUntil importSync
    discard <| eat .semicolon
    return none

/-- The imports, as long as there are any. -/
def imports : TokenParser (List Import) :=
  fix fun more => do
    if (← kind) ∈ [.kwFrom, .kwImport] then
      let found ← importItem
      return found.toList ++ (← more)
    else
      return []

/-- Takes the word `MODULE`. If it is missing, it is looked for in the rest of the heading. -/
def moduleKeyword : TokenParser Bool := do
  if ← eat .kwModule then
    return true
  else
    reportUnexpected .compilationUnit [.kwModule]
    skipUntil headingSync
    if ← eat .kwModule then
      return true
    else
      discard <| eat .semicolon
      return false

/-- The heading of a module; a name that is missing is left empty. -/
def heading : TokenParser String := do
  if ← moduleKeyword then
    let name ← (identifier .compilationUnit).run
    terminate .semicolon .compilationUnit headingSync
    return name.getD ""
  else
    return ""

/-- The full stop behind a module, and then nothing more. -/
def fullStop : TokenParser Unit := do
  if (← (expect .period .compilationUnit).run).isSome ∧ (← kind) ≠ .eof then
    reportUnexpected .compilationUnit [.eof]

/-- `compilationUnit = "MODULE" ident ";" { import } block ident "."`, up to the end of the input. -/
def compilationUnit : TokenParser Module := do
  let name ← heading
  let imports ← imports
  let block ← block
  let endName ← (identifier .compilationUnit).run
  fullStop
  return ⟨name, imports, block, endName.getD ""⟩

/-- Parses a list of tokens: the module, and the diagnostics in the order they are made. -/
def parse (ts : List Token) : Option (Module × List Reported) := do
  let (m, s) ← StateT.run compilationUnit ⟨terminated ts, 0, ⟨[], none⟩⟩
  return (m, s.log.reported)

end ModSyntax.TokenParser
