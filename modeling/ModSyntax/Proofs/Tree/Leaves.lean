import ModSyntax.Parse.Literal
import ModSyntax.Token.Basic
import ModSyntax.Tree.Module

/-!
# The leaves of a tree

The names, literals, signs and operators of a tree in the order of its text, and the symbols that
they are made of.
-/

namespace ModSyntax

/-- A part of a tree that one symbol makes. -/
inductive Leaf where
  | name (n : String)
  | literal (value : Int64)
  /-- A sign, an operator between operands, or `NOT`. -/
  | operator (kind : Kind)
deriving DecidableEq

/-- The symbol makes the leaf. -/
def Leaf.MadeOf : Leaf → Symbol → Prop
  | name n, s => s.kind = .identifier ∧ s.lexeme = n
  | literal value, s => s.kind = .integer ∧ literalValue? s.lexeme = some value
  | operator kind, s => s.kind = kind

def QualifiedName.leaves (q : QualifiedName) : List Leaf := q.segments.map .name

/-! ## Expressions -/

mutual

def Expr.leaves : Expr → List Leaf
  | .simple e => e.leaves
  | .compare op left right => left.leaves ++ .operator op.kind :: right.leaves

def SimpleExpr.leaves : SimpleExpr → List Leaf
  | ⟨sign, first, rest⟩ =>
    (sign.map (Leaf.operator ·.kind)).toList ++ (first.leaves ++ Term.leavesTail rest)

def Term.leavesTail : List (AddOp × Term) → List Leaf
  | [] => []
  | (op, t) :: rest => .operator op.kind :: (t.leaves ++ Term.leavesTail rest)

def Term.leaves : Term → List Leaf
  | ⟨first, rest⟩ => first.leaves ++ Factor.leavesTail rest

def Factor.leavesTail : List (MulOp × Factor) → List Leaf
  | [] => []
  | (op, f) :: rest => .operator op.kind :: (f.leaves ++ Factor.leavesTail rest)

def Factor.leaves : Factor → List Leaf
  | .int value => [.literal value]
  | .paren e => e.leaves
  | .not f => .operator .kwNot :: f.leaves
  | .ref target => target.leaves
  | .call target args => target.leaves ++ Expr.leavesList args

def Expr.leavesList : List Expr → List Leaf
  | [] => []
  | e :: rest => e.leaves ++ Expr.leavesList rest

end

/-! ## Statements -/

mutual

def Statement.leaves : Statement → List Leaf
  | .assign target value => target.leaves ++ value.leaves
  | .call target args => target.leaves ++ Expr.leavesList args
  | .bare target => target.leaves
  | .branch cond thenBody none => cond.leaves ++ Statement.leavesList thenBody
  | .branch cond thenBody (some elseBody) =>
    cond.leaves ++ (Statement.leavesList thenBody ++ Statement.leavesList elseBody)
  | .loop cond body => cond.leaves ++ Statement.leavesList body
  | .leave none => []
  | .leave (some value) => value.leaves

def Statement.leavesList : List Statement → List Leaf
  | [] => []
  | s :: rest => s.leaves ++ Statement.leavesList rest

end

/-! ## Declarations, blocks and modules -/

def Parameter.leaves (p : Parameter) : List Leaf := p.names.map .name ++ p.typeName.leaves

def Parameters.leaves (p : Parameters) : List Leaf :=
  p.params.flatMap Parameter.leaves ++ (p.result.map QualifiedName.leaves).getD []

mutual

def Declaration.leaves : Declaration → List Leaf
  | .constant n value => .name n :: value.leaves
  | .vars ns typeName => ns.map .name ++ typeName.leaves
  | .procedure p => p.leaves

def Procedure.leaves : Procedure → List Leaf
  | ⟨n, parameters, body, endName⟩ =>
    .name n :: ((parameters.map Parameters.leaves).getD [] ++ (body.leaves ++ [.name endName]))

def Block.leaves : Block → List Leaf
  | ⟨declarations, statements⟩ =>
    Declaration.leavesList declarations ++ Statement.leavesList statements

def Declaration.leavesList : List Declaration → List Leaf
  | [] => []
  | d :: rest => d.leaves ++ Declaration.leavesList rest

end

theorem Declaration.leavesList_append (ds es : List Declaration) :
    Declaration.leavesList (ds ++ es) =
      Declaration.leavesList ds ++ Declaration.leavesList es := by
  induction ds with
  | nil => rfl
  | cons d ds ih => simp [Declaration.leavesList, ih]

/-- The module that names are imported from stands before the names. -/
def Import.leaves (i : Import) : List Leaf :=
  (i.source.map Leaf.name).toList ++ i.names.map .name

/-- The name of a module, at its beginning or its end; the empty name stands for one that is
missing. -/
def moduleNameLeaves (n : String) : List Leaf := if n = "" then [] else [.name n]

def Module.leaves (m : Module) : List Leaf :=
  moduleNameLeaves m.name ++
    (m.imports.flatMap Import.leaves ++ (m.block.leaves ++ moduleNameLeaves m.endName))

end ModSyntax
