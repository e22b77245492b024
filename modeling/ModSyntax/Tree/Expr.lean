import ModSyntax.Tree.Name
import ModSyntax.Tree.Operator

/-!
# Expressions

Four layers, from loose to tight binding: an expression compares at most two simple expressions, a
simple expression adds terms, a term multiplies factors. Chains are read from left to right.
-/

namespace ModSyntax

mutual

/-- A simple expression, or one comparison of two. -/
inductive Expr where
  | simple (e : SimpleExpr)
  | compare (op : Relation) (left right : SimpleExpr)

/-- A chain of terms, with a sign in front of the first. -/
structure SimpleExpr where
  sign : Option Sign
  first : Term
  rest : List (AddOp × Term)

/-- A chain of factors. -/
structure Term where
  first : Factor
  rest : List (MulOp × Factor)

inductive Factor where
  | int (value : Int64)
  | paren (e : Expr)
  | not (f : Factor)
  /-- The value of what `target` names. -/
  | ref (target : QualifiedName)
  /-- The result of calling what `target` names, possibly with no arguments. -/
  | call (target : QualifiedName) (args : List Expr)

end

/-! ## Equality -/

mutual

def Expr.decEq (a b : Expr) : Decidable (a = b) :=
  match a, b with
  | .simple a, .simple b =>
    have := a.decEq b
    decidable_of_iff (a = b) (by simp)
  | .compare op a₁ a₂, .compare op' b₁ b₂ =>
    have := a₁.decEq b₁
    have := a₂.decEq b₂
    decidable_of_iff (op = op' ∧ a₁ = b₁ ∧ a₂ = b₂) (by simp)
  | .simple _, .compare .. => isFalse (by simp)
  | .compare .., .simple _ => isFalse (by simp)

def SimpleExpr.decEq (a b : SimpleExpr) : Decidable (a = b) :=
  match a, b with
  | ⟨sign, first, rest⟩, ⟨sign', first', rest'⟩ =>
    have := first.decEq first'
    have := Term.decEqTail rest rest'
    decidable_of_iff (sign = sign' ∧ first = first' ∧ rest = rest') (by simp)

def Term.decEqTail (a b : List (AddOp × Term)) : Decidable (a = b) :=
  match a, b with
  | [], [] => isTrue rfl
  | (op, t) :: a, (op', t') :: b =>
    have := t.decEq t'
    have := Term.decEqTail a b
    decidable_of_iff (op = op' ∧ t = t' ∧ a = b) (by simp [and_assoc])
  | [], _ :: _ => isFalse (by simp)
  | _ :: _, [] => isFalse (by simp)

def Term.decEq (a b : Term) : Decidable (a = b) :=
  match a, b with
  | ⟨first, rest⟩, ⟨first', rest'⟩ =>
    have := first.decEq first'
    have := Factor.decEqTail rest rest'
    decidable_of_iff (first = first' ∧ rest = rest') (by simp)

def Factor.decEqTail (a b : List (MulOp × Factor)) : Decidable (a = b) :=
  match a, b with
  | [], [] => isTrue rfl
  | (op, f) :: a, (op', f') :: b =>
    have := f.decEq f'
    have := Factor.decEqTail a b
    decidable_of_iff (op = op' ∧ f = f' ∧ a = b) (by simp [and_assoc])
  | [], _ :: _ => isFalse (by simp)
  | _ :: _, [] => isFalse (by simp)

def Factor.decEq (a b : Factor) : Decidable (a = b) :=
  match a, b with
  | .int v, .int w => decidable_of_iff (v = w) (by simp)
  | .paren e, .paren e' =>
    have := e.decEq e'
    decidable_of_iff (e = e') (by simp)
  | .not f, .not f' =>
    have := f.decEq f'
    decidable_of_iff (f = f') (by simp)
  | .ref q, .ref q' => decidable_of_iff (q = q') (by simp)
  | .call q as, .call q' bs =>
    have := Expr.decEqList as bs
    decidable_of_iff (q = q' ∧ as = bs) (by simp)
  | .int _, .paren _ | .int _, .not _ | .int _, .ref _ | .int _, .call .. => isFalse (by simp)
  | .paren _, .int _ | .paren _, .not _ | .paren _, .ref _ | .paren _, .call .. => isFalse (by simp)
  | .not _, .int _ | .not _, .paren _ | .not _, .ref _ | .not _, .call .. => isFalse (by simp)
  | .ref _, .int _ | .ref _, .paren _ | .ref _, .not _ | .ref _, .call .. => isFalse (by simp)
  | .call .., .int _ | .call .., .paren _ | .call .., .not _ | .call .., .ref _ =>
    isFalse (by simp)

def Expr.decEqList (as bs : List Expr) : Decidable (as = bs) :=
  match as, bs with
  | [], [] => isTrue rfl
  | a :: as, b :: bs =>
    have := a.decEq b
    have := Expr.decEqList as bs
    decidable_of_iff (a = b ∧ as = bs) (by simp)
  | [], _ :: _ => isFalse (by simp)
  | _ :: _, [] => isFalse (by simp)

end

instance : DecidableEq Expr := Expr.decEq

/-! ## Building -/

/-- The reference to what the path names. -/
def Factor.var (path : String) : Factor := .ref (.ofPath path)

/-- The call of what the path names. -/
def Factor.callPath (path : String) (args : List Expr) : Factor := .call (.ofPath path) args

def Term.ofFactor (f : Factor) : Term := ⟨f, []⟩

/-- The chain with one more factor at its right end. -/
def Term.mul (t : Term) (op : MulOp) (f : Factor) : Term := { t with rest := t.rest ++ [(op, f)] }

def SimpleExpr.ofTerm (sign : Option Sign) (t : Term) : SimpleExpr := ⟨sign, t, []⟩

/-- The chain with one more term at its right end. -/
def SimpleExpr.add (e : SimpleExpr) (op : AddOp) (t : Term) : SimpleExpr :=
  { e with rest := e.rest ++ [(op, t)] }

instance : Coe Factor Term := ⟨.ofFactor⟩

instance : Coe Term SimpleExpr := ⟨.ofTerm none⟩

instance : Coe SimpleExpr Expr := ⟨.simple⟩

end ModSyntax
