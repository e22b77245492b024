import ModSyntax.Parse.Rule

/-!
# Recovery

Where parsing goes on after a mistake. A broken construct is skipped up to a symbol at which one of
the constructs around it can go on.
-/

namespace ModSyntax.Parser

/-- Where a broken declaration ends: the next declaration, or the body of the block. -/
def declarationSync : List Kind :=
  [.semicolon, .kwConst, .kwVar, .kwProcedure, .kwBegin, .kwEnd]

/-- Where a broken import ends. -/
def importSync : List Kind :=
  [.semicolon, .kwFrom, .kwImport, .kwConst, .kwVar, .kwProcedure, .kwBegin, .kwEnd]

/-- Where a broken module heading ends. -/
def headingSync : List Kind := .kwModule :: importSync

/-- Where a broken parameter ends. A `VAR` is passed over: it may begin the next parameter. -/
def parameterSync : List Kind := [.semicolon, .rparen, .kwConst, .kwProcedure, .kwBegin, .kwEnd]

/-- The kinds a statement begins with. -/
def statementStart : List Kind := [.identifier, .kwIf, .kwWhile, .kwReturn]

/-- What closes the statements of a block, a loop or an alternative. -/
def sequenceEnd : List Kind := [.kwEnd]

/-- What closes the statements behind `THEN`. -/
def thenEnd : List Kind := [.kwElse, .kwEnd]

/-- What may follow a whole expression. -/
def expressionFollow : List Kind :=
  [.semicolon, .rparen, .comma, .kwThen, .kwDo, .kwElse, .kwEnd]

/-- Takes `k`. If it is missing, that is reported, and parsing goes on as if it stood there. -/
def require (k : Kind) (rule : Construct) : Parser Unit := do
  if ← accept k then
    return
  else
    unexpected rule [k]

/-- Takes `k`. If it is missing, that is reported, and parsing goes on at one of the kinds `sync`,
behind `k` if that is what is found. -/
def terminate (k : Kind) (rule : Construct) (sync : List Kind) : Parser Unit := do
  if ← accept k then
    return
  else
    unexpected rule [k]
    skipUntil sync
    discard <| accept k

/-- Leaves a broken declaration, and the semicolon behind it. -/
def leaveDeclaration : Parser Unit := do
  skipUntil declarationSync
  discard <| accept .semicolon

/-- Takes the semicolon behind an entry of a declaration part. If it is missing right before the next
entry or section, parsing goes on there. -/
def endEntry (rule : Construct) : Parser Unit := do
  if ← accept .semicolon then
    return
  else
    unexpected rule [.semicolon]
    if (← kind) ∈ .identifier :: declarationSync then
      return
    else
      leaveDeclaration

end ModSyntax.Parser
