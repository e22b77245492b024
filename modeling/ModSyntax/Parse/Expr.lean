import ModSyntax.Parse.Literal
import ModSyntax.Parse.Recovery
import ModSyntax.Tree.Expr

/-!
# Parsing expressions

The rules from names up to expressions. Only factors hold expressions again, so the other rules
take the rule for factors as an argument, and `factor` is the one that calls itself.
-/

namespace ModSyntax.Rule

open ModSyntax.Parser

/-- Takes a dot that an identifier follows. -/
def dot : Parser (Option Unit) := do
  if (← kind) = .period ∧ (← look Cursor.secondKind) = .identifier then
    skip
    return some ()
  else
    return none

/-- `qualident = ident { "." ident }`. A dot belongs to the name only if an identifier follows. -/
def qualifiedName (rule : Construct) : Rule QualifiedName := do
  let first ← identifier rule
  let more ← chain dot (identifier rule)
  return ⟨first :: more.map Prod.snd⟩

/-- An integer literal, which has to be in range. -/
def literal : Rule Factor := do
  let lexeme ← look Cursor.lexeme
  match literalValue? lexeme with
  | some value =>
    skip
    return .int value
  | none =>
    report (.outOfRange lexeme)
    skip
    fail

/-- `term = factor { ( "*" | "/" | "DIV" | "MOD" | "AND" ) factor }` -/
def termOf (factor : Rule Factor) : Rule Term := do
  let first ← factor
  let rest ← chain (operator MulOp.ofKind?) factor
  return ⟨first, rest⟩

/-- `simpleExpression = [ "+" | "-" ] term { ( "+" | "-" | "OR" ) term }` -/
def simpleExprOf (factor : Rule Factor) : Rule SimpleExpr := do
  let sign ← operator Sign.ofKind?
  let first ← termOf factor
  let rest ← chain (operator AddOp.ofKind?) (termOf factor)
  return ⟨sign, first, rest⟩

/-- `expression = simpleExpression [ relation simpleExpression ]`. Relations do not chain. -/
def exprOf (factor : Rule Factor) : Rule Expr := do
  let left ← simpleExprOf factor
  match ← operator Relation.ofKind? with
  | none => return .simple left
  | some op =>
    let right ← simpleExprOf factor
    if (← kind).isRelation then
      unexpected .expression expressionFollow
      fail
    else
      return .compare op left right

/-- Any number of expressions with a comma between them. -/
def exprListOf (factor : Rule Factor) : Rule (List Expr) := do
  if (← kind).startsExpression then
    commaList (exprOf factor)
  else
    return []

/-- `arguments = "(" [ expression { "," expression } ] ")"`, at the bracket. -/
def argumentsOf (factor : Rule Factor) (rule : Construct) : Rule (List Expr) := do
  skip
  let args ← exprListOf factor
  discard <| expect .rparen rule
  return args

/-- One factor; `factor` reads the factors inside it. -/
def factorOf (factor : Rule Factor) : Rule Factor := do
  match ← kind with
  | .integer => literal
  | .lparen =>
    skip
    let e ← exprOf factor
    discard <| expect .rparen .factor
    return .paren e
  | .kwNot =>
    skip
    return .not (← factor)
  | .identifier =>
    let target ← qualifiedName .factor
    if (← kind) = .lparen then
      return .call target (← argumentsOf factor .factor)
    else
      return .ref target
  | _ =>
    unexpected .factor [.integer, .lparen, .kwNot, .identifier]
    fail

/-- `factor = integer | "(" expression ")" | "NOT" factor | qualident [ arguments ]` -/
def factor : Rule Factor := fix factorOf

def expr : Rule Expr := exprOf factor

def arguments (rule : Construct) : Rule (List Expr) := argumentsOf factor rule

end ModSyntax.Rule
