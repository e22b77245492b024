import ModSyntax.TokenParser.Expr
import ModSyntax.Tree.Statement

/-!
# Statements on tokens
-/

namespace ModSyntax.TokenParser

open ModSyntax.Parser (statementStart sequenceEnd thenEnd)

/-- Passes over what stands between two statements, and tells whether another one follows. -/
def separator (closers : List Kind) : TokenParser Bool := do
  if ← eat .semicolon then
    return true
  else if (← kind) ∈ statementStart then
    reportUnexpected .statementSequence [.semicolon]
    return true
  else if (← kind) ∈ .eof :: closers then
    return false
  else
    reportUnexpected .statementSequence (.semicolon :: closers)
    discard advance
    skipUntil (.semicolon :: closers)
    eat .semicolon

/-- The condition of a statement, and the keyword behind it. -/
def condition (keyword : Kind) (rule : Construct) : TokenParser (Option Expr) := do
  let cond ← expr.run
  if cond.isNone then
    skipUntil [keyword, .semicolon, .kwEnd]
  require keyword rule
  return cond

/-- An assignment, a call, or a name by itself: what follows the name decides. -/
def designator : TokenRule Statement := do
  let target ← qualifiedName .statement
  match ← kind with
  | .becomes =>
    discard advance
    return .assign target (← expr)
  | .lparen => return .call target (← arguments .statement)
  | _ => return .bare target

/-- `"RETURN" [ expression ]` -/
def leave : TokenRule Statement := do
  discard advance
  if (← kind).startsExpression then
    return .leave (some (← expr))
  else
    return .leave none

/-- `statementSequence = statement { ";" statement }`, closed by one of the kinds `closers`. -/
def sequenceOf (statement : TokenParser (Option Statement)) (closers : List Kind) :
    TokenParser (List Statement) :=
  fix fun more => do
    let found ← statement
    if found.isNone then
      skipUntil (.semicolon :: closers)
    if ← separator closers then
      return found.toList ++ (← more)
    else
      return found.toList

/-- `[ "ELSE" statementSequence ]` -/
def otherwiseOf? (statement : TokenParser (Option Statement)) :
    TokenParser (Option (List Statement)) := do
  if ← eat .kwElse then
    return some (← sequenceOf statement sequenceEnd)
  else
    return none

/-- `ifStatement = "IF" expression "THEN" statementSequence [ "ELSE" statementSequence ] "END"` -/
def branchOf (statement : TokenParser (Option Statement)) : TokenParser (Option Statement) := do
  discard advance
  let cond ← condition .kwThen .ifStatement
  let thenBody ← sequenceOf statement thenEnd
  let elseBody ← otherwiseOf? statement
  let close ← (expect .kwEnd .ifStatement).run
  return close.bind fun _ => cond.map fun cond => .branch cond thenBody elseBody

/-- `whileStatement = "WHILE" expression "DO" statementSequence "END"` -/
def loopOf (statement : TokenParser (Option Statement)) : TokenParser (Option Statement) := do
  discard advance
  let cond ← condition .kwDo .whileStatement
  let body ← sequenceOf statement sequenceEnd
  let close ← (expect .kwEnd .whileStatement).run
  return close.bind fun _ => cond.map fun cond => .loop cond body

/-- One statement; `statement` reads the statements inside it. -/
def statementOf (statement : TokenParser (Option Statement)) : TokenParser (Option Statement) := do
  match ← kind with
  | .identifier => designator.run
  | .kwIf => branchOf statement
  | .kwWhile => loopOf statement
  | .kwReturn => leave.run
  | _ =>
    reportUnexpected .statement statementStart
    return none

/-- `statement = qualident ( ":=" expression | [ arguments ] ) | ifStatement | whileStatement
| "RETURN" [ expression ]` -/
def statement : TokenParser (Option Statement) := fix statementOf

def sequence (closers : List Kind) : TokenParser (List Statement) := sequenceOf statement closers

end ModSyntax.TokenParser
