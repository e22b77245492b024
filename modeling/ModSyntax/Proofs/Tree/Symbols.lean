import ModSyntax.Token.Basic
import ModSyntax.Tree.Module

/-!
# The symbols of a tree

The symbols that a tree is written with, in the order of the grammar. Where the grammar leaves a
choice, it is made once: every constant and every variable declaration has a section of its own, a
block has a `BEGIN` only if it has statements, and no semicolon ends a sequence. A negative integer
is a minus and its magnitude.
-/

namespace ModSyntax

/-- Words with a symbol between them. -/
def separated (s : Symbol) : List (List Symbol) → List Symbol
  | [] => []
  | w :: ws => w ++ ws.flatMap (s :: ·)

/-- An integer; a negative one is its magnitude behind a minus. -/
def integerSymbols (n : Int) : List Symbol :=
  (if n < 0 then [.ofKind .minus] else []) ++ [.integer n.natAbs]

def identifierSymbols (ns : List String) : List Symbol :=
  separated (.ofKind .comma) (ns.map fun n => [.identifier n])

def QualifiedName.symbols (q : QualifiedName) : List Symbol :=
  separated (.ofKind .period) (q.segments.map fun n => [.identifier n])

/-! ## Expressions -/

mutual

def Expr.symbols : Expr → List Symbol
  | .simple e => e.symbols
  | .compare op left right => left.symbols ++ .ofKind op.kind :: right.symbols

def SimpleExpr.symbols : SimpleExpr → List Symbol
  | ⟨sign, first, rest⟩ =>
    (sign.map (Symbol.ofKind ·.kind)).toList ++ (first.symbols ++ Term.symbolsTail rest)

def Term.symbolsTail : List (AddOp × Term) → List Symbol
  | [] => []
  | (op, t) :: rest => .ofKind op.kind :: (t.symbols ++ Term.symbolsTail rest)

def Term.symbols : Term → List Symbol
  | ⟨first, rest⟩ => first.symbols ++ Factor.symbolsTail rest

def Factor.symbolsTail : List (MulOp × Factor) → List Symbol
  | [] => []
  | (op, f) :: rest => .ofKind op.kind :: (f.symbols ++ Factor.symbolsTail rest)

def Factor.symbols : Factor → List Symbol
  | .int value => integerSymbols value.toInt
  | .paren e => .ofKind .lparen :: (e.symbols ++ [.ofKind .rparen])
  | .not f => .ofKind .kwNot :: f.symbols
  | .ref target => target.symbols
  | .call target args =>
    target.symbols ++
      .ofKind .lparen :: (separated (.ofKind .comma) (Expr.symbolsEach args) ++ [.ofKind .rparen])

def Expr.symbolsEach : List Expr → List (List Symbol)
  | [] => []
  | e :: rest => e.symbols :: Expr.symbolsEach rest

end

def argumentSymbols (args : List Expr) : List Symbol :=
  .ofKind .lparen :: (separated (.ofKind .comma) (Expr.symbolsEach args) ++ [.ofKind .rparen])

/-! ## Statements -/

mutual

def Statement.symbols : Statement → List Symbol
  | .assign target value => target.symbols ++ .ofKind .becomes :: value.symbols
  | .call target args => target.symbols ++ argumentSymbols args
  | .bare target => target.symbols
  | .branch cond thenBody none =>
    .ofKind .kwIf :: (cond.symbols ++ .ofKind .kwThen ::
      (Statement.symbolsList thenBody ++ [.ofKind .kwEnd]))
  | .branch cond thenBody (some elseBody) =>
    .ofKind .kwIf :: (cond.symbols ++ .ofKind .kwThen :: (Statement.symbolsList thenBody ++
      .ofKind .kwElse :: (Statement.symbolsList elseBody ++ [.ofKind .kwEnd])))
  | .loop cond body =>
    .ofKind .kwWhile :: (cond.symbols ++ .ofKind .kwDo ::
      (Statement.symbolsList body ++ [.ofKind .kwEnd]))
  | .leave none => [.ofKind .kwReturn]
  | .leave (some value) => .ofKind .kwReturn :: value.symbols

/-- Statements with a semicolon behind all but the last. -/
def Statement.symbolsList : List Statement → List Symbol
  | [] => []
  | s :: rest =>
    s.symbols ++ ((if rest.isEmpty then [] else [.ofKind .semicolon]) ++ Statement.symbolsList rest)

end

/-! ## Declarations, blocks and modules -/

def Parameter.symbols (p : Parameter) : List Symbol :=
  (if p.byReference then [.ofKind .kwVar] else []) ++
    (identifierSymbols p.names ++ .ofKind .colon :: p.typeName.symbols)

def Parameters.symbols (p : Parameters) : List Symbol :=
  .ofKind .lparen :: (separated (.ofKind .semicolon) (p.params.map Parameter.symbols) ++
    .ofKind .rparen :: (p.result.map fun q => .ofKind .colon :: q.symbols).getD [])

mutual

def Declaration.symbols : Declaration → List Symbol
  | .constant n value =>
    .ofKind .kwConst :: .identifier n :: .ofKind .equal :: (value.symbols ++ [.ofKind .semicolon])
  | .vars ns typeName =>
    .ofKind .kwVar :: (identifierSymbols ns ++
      .ofKind .colon :: (typeName.symbols ++ [.ofKind .semicolon]))
  | .procedure p => p.symbols

def Procedure.symbols : Procedure → List Symbol
  | ⟨n, parameters, body, endName⟩ =>
    .ofKind .kwProcedure :: .identifier n :: ((parameters.map Parameters.symbols).getD [] ++
      .ofKind .semicolon :: (body.symbols ++
        [.ofKind .kwEnd, .identifier endName, .ofKind .semicolon]))

/-- The declarations and statements of a block, up to its end. -/
def Block.symbols : Block → List Symbol
  | ⟨declarations, statements⟩ =>
    Declaration.symbolsList declarations ++
      ((if statements.isEmpty then [] else [.ofKind .kwBegin]) ++ Statement.symbolsList statements)

def Declaration.symbolsList : List Declaration → List Symbol
  | [] => []
  | d :: rest => d.symbols ++ Declaration.symbolsList rest

end

def Import.symbols (i : Import) : List Symbol :=
  (i.source.map fun m => [.ofKind .kwFrom, .identifier m]).getD [] ++
    .ofKind .kwImport :: (identifierSymbols i.names ++ [.ofKind .semicolon])

def Module.symbols (m : Module) : List Symbol :=
  .ofKind .kwModule :: .identifier m.name :: .ofKind .semicolon ::
    (m.imports.flatMap Import.symbols ++
      (m.block.symbols ++ [.ofKind .kwEnd, .identifier m.endName, .ofKind .period]))

end ModSyntax
