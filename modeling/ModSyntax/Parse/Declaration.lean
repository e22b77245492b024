import ModSyntax.Parse.Statement
import ModSyntax.Tree.Module

/-!
# Parsing declarations and blocks

A block never fails. A broken declaration is left out of it, and parsing goes on at the next one.
-/

namespace ModSyntax.Rule

open ModSyntax.Parser

/-- `constDecl = ident "=" expression` -/
def constant : Rule Declaration := do
  let name ← identifier .constant
  discard <| expect .equal .constant
  return .constant name (← expr)

/-- `varDecl = identList ":" qualident` -/
def vars : Rule Declaration := do
  let names ← identifierList .vars
  discard <| expect .colon .vars
  return .vars names (← qualifiedName .vars)

/-- One entry of a section, if an identifier begins it; `more` reads those behind it. -/
def entriesStep (rule : Construct) (entry : Rule Declaration) (more : Parser (List Declaration)) :
    Parser (List Declaration) := do
  if (← kind) = .identifier then
    match ← entry.attempt with
    | some d =>
      endEntry rule
      return d :: (← more)
    | none =>
      leaveDeclaration
      more
  else
    return []

/-- The entries of a section, as long as an identifier begins one. -/
def entries (rule : Construct) (entry : Rule Declaration) : Parser (List Declaration) :=
  Parser.fix [] (entriesStep rule entry)

/-- `formalParameter = [ "VAR" ] identList ":" qualident` -/
def parameter : Rule Parameter := do
  let byReference ← accept .kwVar
  let names ← identifierList .parameter
  discard <| expect .colon .parameter
  return ⟨byReference, names, ← qualifiedName .parameter⟩

/-- One parameter; `more` reads those behind a semicolon. -/
def parameterListStep (more : Parser (Option (List Parameter))) :
    Parser (Option (List Parameter)) := do
  let found ← parameter.orSkipUntil parameterSync
  if ← accept .semicolon then
    let others ← more
    return found.bind fun p => others.map (p :: ·)
  else
    return found.map ([·])

/-- Parameters with a semicolon between them; no value if one of them is broken. -/
def parameterList : Parser (Option (List Parameter)) := Parser.fix none parameterListStep

/-- What stands between the brackets. -/
def parameterItems : Parser (Option (List Parameter)) := do
  if (← kind) ∈ [.kwVar, .identifier] then
    parameterList
  else
    return some []

/-- `formalParameters = "(" [ formalParameter { ";" formalParameter } ] ")" [ ":" qualident ]`, at
the bracket. -/
def parameters : Rule Parameters := do
  skip
  let params ← parameterItems
  discard <| orLeave (expect .rparen .parameters)
  let result ← after? .colon (orLeave (qualifiedName .parameters))
  match params with
  | some params => return ⟨params, result⟩
  | none => fail
where
  /-- If `rule` fails, the whole heading is left. -/
  orLeave {α : Type} (rule : Rule α) : Rule α := do
    match ← rule.attempt with
    | some a => return a
    | none =>
      skipUntil declarationSync
      fail

/-- The parameters, if a bracket opens them. -/
def parameters? : Rule (Option Parameters) := do
  if (← kind) = .lparen then
    return some (← parameters)
  else
    return none

/-- `procedureDecl = "PROCEDURE" ident [ formalParameters ] ";" block ident`. Heading, body and
closing name are read whatever is wrong with any of them. -/
def procedureOf (block : Parser Block) : Rule Declaration := do
  skip
  let name ← (identifier .procedure).attempt
  let params ← parameters?.attempt
  require .semicolon .procedure
  let body ← block
  let endName ← (identifier .procedure).attempt
  match name, params, endName with
  | some name, some params, some endName => return .procedure ⟨name, params, body, endName⟩
  | _, _, _ => fail

/-- `declaration = "CONST" { constDecl ";" } | "VAR" { varDecl ";" } | procedureDecl ";"`, one
section or procedure; `more` reads those behind it. -/
def declarationsStep (block : Parser Block) (more : Parser (List Declaration)) :
    Parser (List Declaration) := do
  match ← kind with
  | .kwConst =>
    skip
    return (← entries .constant constant) ++ (← more)
  | .kwVar =>
    skip
    return (← entries .vars vars) ++ (← more)
  | .kwProcedure =>
    let found ← (procedureOf block).attempt
    endEntry .procedure
    return found.toList ++ (← more)
  | .kwBegin | .kwEnd | .eof => return []
  | _ =>
    unexpected .block [.kwConst, .kwVar, .kwProcedure, .kwBegin, .kwEnd]
    leaveDeclaration
    more

/-- As many declarations as there are. -/
def declarationsOf (block : Parser Block) : Parser (List Declaration) :=
  Parser.fix [] (declarationsStep block)

/-- The statements of a block, if it has a body. -/
def body : Parser (List Statement) := do
  if ← accept .kwBegin then
    sequence sequenceEnd
  else
    return []

/-- One block; `block` reads the bodies of the procedures in it. -/
def blockOf (block : Parser Block) : Parser Block := do
  let declarations ← declarationsOf block
  let statements ← body
  terminate .kwEnd .block sequenceEnd
  return ⟨declarations, statements⟩

/-- `block = { declaration } [ "BEGIN" statementSequence ] "END"` -/
def block : Parser Block := Parser.fix .empty blockOf

end ModSyntax.Rule
