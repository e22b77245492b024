import ModSyntax.Print.Layout
import ModSyntax.Tree.Expr

/-!
# Canonical text of expressions

Operators stand between spaces, signs and brackets stand close, arguments are parted by a comma and a
space. Brackets are written where the tree has them, and nowhere else.
-/

namespace ModSyntax

open Layout

mutual

def Expr.layout : Expr → Except InvalidIdentifier Layout
  | .simple e => e.layout
  | .compare op left right => do
    let left ← left.layout
    let right ← right.layout
    return left ++ spaced op.kind ++ right

def SimpleExpr.layout : SimpleExpr → Except InvalidIdentifier Layout
  | ⟨sign, first, rest⟩ => do
    let first ← first.layout
    let rest ← Term.layoutTail rest
    return (sign.map (word ·.kind)).toList ++ first ++ rest

/-- Terms behind the first, each behind its operator. -/
def Term.layoutTail : List (AddOp × Term) → Except InvalidIdentifier Layout
  | [] => return []
  | (op, t) :: rest => do
    let t ← t.layout
    let rest ← Term.layoutTail rest
    return spaced op.kind ++ t ++ rest

def Term.layout : Term → Except InvalidIdentifier Layout
  | ⟨first, rest⟩ => do
    let first ← first.layout
    let rest ← Factor.layoutTail rest
    return first ++ rest

/-- Factors behind the first, each behind its operator. -/
def Factor.layoutTail : List (MulOp × Factor) → Except InvalidIdentifier Layout
  | [] => return []
  | (op, f) :: rest => do
    let f ← f.layout
    let rest ← Factor.layoutTail rest
    return spaced op.kind ++ f ++ rest

def Factor.layout : Factor → Except InvalidIdentifier Layout
  | .int value => return integer value.toInt
  | .paren e => do
    let e ← e.layout
    return [word .lparen] ++ e ++ [word .rparen]
  | .not f => do
    let f ← f.layout
    return [word .kwNot, space] ++ f
  | .ref target => qualifiedName target
  | .call target args => do
    let target ← qualifiedName target
    let args ← Expr.layouts args
    return target ++ [word .lparen] ++ commas args ++ [word .rparen]

def Expr.layouts : List Expr → Except InvalidIdentifier (List Layout)
  | [] => return []
  | e :: rest => do
    let e ← e.layout
    let rest ← Expr.layouts rest
    return e :: rest

end

/-- The canonical text of an expression. -/
def Expr.print (e : Expr) : Except InvalidIdentifier String := Layout.text <$> e.layout

end ModSyntax
