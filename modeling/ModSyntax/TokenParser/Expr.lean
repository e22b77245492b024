import ModSyntax.Parse.Literal
import ModSyntax.TokenParser.State
import ModSyntax.Tree.Expr

/-!
# Expressions on tokens

One reader for each rule of the grammar, and one for each loop in a rule. As only factors hold
expressions again, the readers in between are given the one for factors.
-/

namespace ModSyntax.TokenParser

open ModSyntax.Parser (expressionFollow)

/-! ## Names -/

/-- `{ "." ident }`. A dot belongs to the name only if an identifier follows. -/
def moreSegments (rule : Construct) : TokenRule (List String) :=
  fixRule fun more => do
    if (← kind) = .period ∧ (← peekKind 1) = .identifier then
      discard advance
      let name ← identifier rule
      return name :: (← more)
    else
      return []

/-- `qualident = ident { "." ident }` -/
def qualifiedName (rule : Construct) : TokenRule QualifiedName := do
  let first ← identifier rule
  return ⟨first :: (← moreSegments rule)⟩

/-- `{ "," item }` -/
def moreItems {α : Type} (item : TokenRule α) : TokenRule (List α) :=
  fixRule fun more => do
    if ← eat .comma then
      let a ← item
      return a :: (← more)
    else
      return []

/-- `identList = ident { "," ident }` -/
def identifierList (rule : Construct) : TokenRule (List String) := do
  let first ← identifier rule
  return first :: (← moreItems (identifier rule))

/-! ## Expressions -/

/-- An integer literal, which has to be in range. It is taken before it is looked at. -/
def literal : TokenRule Factor := do
  let start ← index
  let t ← advance
  match literalValue? t.lexeme with
  | some value => return .int value
  | none =>
    reportAt start ⟨t.position, .outOfRange t.lexeme⟩
    failure

/-- `{ operator item }`, with the operators of one level of the grammar. -/
def moreOperands {ω α : Type} (ofKind? : Kind → Option ω) (item : TokenRule α) :
    TokenRule (List (ω × α)) :=
  fixRule fun more => do
    match ofKind? (← kind) with
    | none => return []
    | some op =>
      discard advance
      let a ← item
      return (op, a) :: (← more)

/-- `term = factor { ( "*" | "/" | "DIV" | "MOD" | "AND" ) factor }` -/
def termOf (factor : TokenRule Factor) : TokenRule Term := do
  let first ← factor
  return ⟨first, ← moreOperands MulOp.ofKind? factor⟩

/-- `simpleExpression = [ "+" | "-" ] term { ( "+" | "-" | "OR" ) term }` -/
def simpleExprOf (factor : TokenRule Factor) : TokenRule SimpleExpr := do
  let sign := Sign.ofKind? (← kind)
  if sign.isSome then
    discard advance
  let first ← termOf factor
  return ⟨sign, first, ← moreOperands AddOp.ofKind? (termOf factor)⟩

/-- `expression = simpleExpression [ relation simpleExpression ]`. Relations do not chain. -/
def exprOf (factor : TokenRule Factor) : TokenRule Expr := do
  let left ← simpleExprOf factor
  match Relation.ofKind? (← kind) with
  | none => return .simple left
  | some op =>
    discard advance
    let right ← simpleExprOf factor
    if (← kind).isRelation then
      reportUnexpected .expression expressionFollow
      failure
    else
      return .compare op left right

/-- `[ expression { "," expression } ]` -/
def exprListOf (factor : TokenRule Factor) : TokenRule (List Expr) := do
  if (← kind).startsExpression then
    let first ← exprOf factor
    return first :: (← moreItems (exprOf factor))
  else
    return []

/-- `arguments = "(" [ expression { "," expression } ] ")"`, at the bracket. -/
def argumentsOf (factor : TokenRule Factor) (rule : Construct) : TokenRule (List Expr) := do
  discard advance
  let args ← exprListOf factor
  discard <| expect .rparen rule
  return args

/-- One factor; `factor` reads the factors inside it. -/
def factorOf (factor : TokenRule Factor) : TokenRule Factor := do
  match ← kind with
  | .integer => literal
  | .lparen =>
    discard advance
    let e ← exprOf factor
    discard <| expect .rparen .factor
    return .paren e
  | .kwNot =>
    discard advance
    return .not (← factor)
  | .identifier =>
    let target ← qualifiedName .factor
    if (← kind) = .lparen then
      return .call target (← argumentsOf factor .factor)
    else
      return .ref target
  | _ =>
    reportUnexpected .factor [.integer, .lparen, .kwNot, .identifier]
    failure

/-- `factor = integer | "(" expression ")" | "NOT" factor | qualident [ arguments ]` -/
def factor : TokenRule Factor := fixRule factorOf

def expr : TokenRule Expr := exprOf factor

def arguments (rule : Construct) : TokenRule (List Expr) := argumentsOf factor rule

end ModSyntax.TokenParser
