import ModSyntax.Tree.Statement

/-!
# Declarations, blocks and modules

Blocks hold declarations and statements, procedures hold blocks, and a module is a named block with
imports. A closing name is kept as it is written: nothing here asks that it agrees with the opening
name.
-/

namespace ModSyntax

/-- Parameters of one type, passed by value or by reference. -/
structure Parameter where
  byReference : Bool
  names : List String
  typeName : QualifiedName
deriving DecidableEq

/-- The list of parameters of a procedure and, for a function, the type of its result. -/
structure Parameters where
  params : List Parameter
  result : Option QualifiedName
deriving DecidableEq

mutual

inductive Declaration where
  | constant (name : String) (value : Expr)
  | vars (names : List String) (typeName : QualifiedName)
  | procedure (p : Procedure)

structure Procedure where
  name : String
  parameters : Option Parameters
  body : Block
  endName : String

structure Block where
  declarations : List Declaration
  statements : List Statement

end

/-- Names that a module brings in, from `source` or as whole modules. -/
structure Import where
  source : Option String
  names : List String
deriving DecidableEq

structure Module where
  name : String
  imports : List Import
  block : Block
  endName : String

/-- The block with nothing in it. -/
def Block.empty : Block := ⟨[], []⟩

/-- The name that a declaration introduces, if it introduces one only. -/
def Declaration.name? : Declaration → Option String
  | constant name _ => some name
  | vars .. => none
  | procedure p => some p.name

/-! ## Equality -/

mutual

def Declaration.decEq (a b : Declaration) : Decidable (a = b) :=
  match a, b with
  | .constant n e, .constant n' e' => decidable_of_iff (n = n' ∧ e = e') (by simp)
  | .vars ns q, .vars ns' q' => decidable_of_iff (ns = ns' ∧ q = q') (by simp)
  | .procedure p, .procedure p' =>
    have := p.decEq p'
    decidable_of_iff (p = p') (by simp)
  | .constant .., .vars .. | .constant .., .procedure _ => isFalse (by simp)
  | .vars .., .constant .. | .vars .., .procedure _ => isFalse (by simp)
  | .procedure _, .constant .. | .procedure _, .vars .. => isFalse (by simp)

def Procedure.decEq (a b : Procedure) : Decidable (a = b) :=
  match a, b with
  | ⟨n, ps, body, m⟩, ⟨n', ps', body', m'⟩ =>
    have := body.decEq body'
    decidable_of_iff (n = n' ∧ ps = ps' ∧ body = body' ∧ m = m') (by simp)

def Block.decEq (a b : Block) : Decidable (a = b) :=
  match a, b with
  | ⟨ds, ss⟩, ⟨ds', ss'⟩ =>
    have := Declaration.decEqList ds ds'
    decidable_of_iff (ds = ds' ∧ ss = ss') (by simp)

def Declaration.decEqList (as bs : List Declaration) : Decidable (as = bs) :=
  match as, bs with
  | [], [] => isTrue rfl
  | a :: as, b :: bs =>
    have := a.decEq b
    have := Declaration.decEqList as bs
    decidable_of_iff (a = b ∧ as = bs) (by simp)
  | [], _ :: _ => isFalse (by simp)
  | _ :: _, [] => isFalse (by simp)

end

instance : DecidableEq Declaration := Declaration.decEq

instance : DecidableEq Block := Block.decEq

deriving instance DecidableEq for Module

end ModSyntax
