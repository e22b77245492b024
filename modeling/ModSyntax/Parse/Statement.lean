import ModSyntax.Parse.Expr
import ModSyntax.Tree.Statement

/-!
# Parsing statements

Statements hold sequences of statements. A sequence never fails: what is wrong in it is reported and
skipped up to the next semicolon, or to a symbol that closes the sequence.
-/

namespace ModSyntax.Rule

open ModSyntax.Parser

/-- Passes over what stands between two statements, and tells whether another one follows. A semicolon
that is missing before a statement is reported and assumed. Any symbol that neither begins a statement
nor closes the sequence is skipped with what follows it, up to the next semicolon or closer. -/
def separator (closers : List Kind) : Parser Bool := do
  if ← accept .semicolon then
    return true
  else if (← kind) ∈ statementStart then
    unexpected .statementSequence [.semicolon]
    return true
  else if (← kind) ∈ .eof :: closers then
    return false
  else
    unexpected .statementSequence (.semicolon :: closers)
    skip
    skipUntil (.semicolon :: closers)
    accept .semicolon

/-- One statement of a sequence; `more` reads those behind it. A broken statement is left out. -/
def sequenceStep (statement : Rule Statement) (closers : List Kind)
    (more : Parser (List Statement)) : Parser (List Statement) := do
  let found ← statement.orSkipUntil (.semicolon :: closers)
  if ← separator closers then
    return found.toList ++ (← more)
  else
    return found.toList

/-- `statementSequence = statement { ";" statement }`, closed by one of the kinds `closers`. -/
def sequenceOf (statement : Rule Statement) (closers : List Kind) : Parser (List Statement) :=
  Parser.fix [] (sequenceStep statement closers)

/-- The condition of a statement, and the keyword behind it. If the condition is broken, parsing goes
on at the keyword, or else at the end of the statement. -/
def condition (keyword : Kind) (rule : Construct) : Parser (Option Expr) := do
  let cond ← expr.orSkipUntil [keyword, .semicolon, .kwEnd]
  require keyword rule
  return cond

/-- An assignment, a call, or a name by itself: what follows the name decides. -/
def designator : Rule Statement := do
  let target ← qualifiedName .statement
  match ← kind with
  | .becomes =>
    skip
    return .assign target (← expr)
  | .lparen => return .call target (← arguments .statement)
  | _ => return .bare target

/-- `ifStatement = "IF" expression "THEN" statementSequence [ "ELSE" statementSequence ] "END"` -/
def branchOf (statement : Rule Statement) : Rule Statement := do
  skip
  let cond ← condition .kwThen .ifStatement
  let thenBody ← sequenceOf statement thenEnd
  let elseBody ← after? .kwElse (sequenceOf statement sequenceEnd)
  discard <| expect .kwEnd .ifStatement
  match cond with
  | some cond => return .branch cond thenBody elseBody
  | none => fail

/-- `whileStatement = "WHILE" expression "DO" statementSequence "END"` -/
def loopOf (statement : Rule Statement) : Rule Statement := do
  skip
  let cond ← condition .kwDo .whileStatement
  let body ← sequenceOf statement sequenceEnd
  discard <| expect .kwEnd .whileStatement
  match cond with
  | some cond => return .loop cond body
  | none => fail

/-- `"RETURN" [ expression ]` -/
def leave : Rule Statement := do
  skip
  if (← kind).startsExpression then
    return .leave (some (← expr))
  else
    return .leave none

/-- One statement; `statement` reads the statements inside it. -/
def statementOf (statement : Rule Statement) : Rule Statement := do
  match ← kind with
  | .identifier => designator
  | .kwIf => branchOf statement
  | .kwWhile => loopOf statement
  | .kwReturn => leave
  | _ =>
    unexpected .statement statementStart
    fail

/-- `statement = qualident ( ":=" expression | [ arguments ] ) | ifStatement | whileStatement
| "RETURN" [ expression ]` -/
def statement : Rule Statement := fix statementOf

def sequence (closers : List Kind) : Parser (List Statement) := sequenceOf statement closers

end ModSyntax.Rule
