import ModSyntax.Tree.Expr

/-!
# Statements
-/

namespace ModSyntax

inductive Statement where
  | assign (target : QualifiedName) (value : Expr)
  | call (target : QualifiedName) (args : List Expr)
  /-- A name by itself: a call without a list of arguments. -/
  | bare (target : QualifiedName)
  | branch (cond : Expr) (thenBody : List Statement) (elseBody : Option (List Statement))
  | loop (cond : Expr) (body : List Statement)
  | leave (value : Option Expr)

namespace Statement

/-! ## Equality -/

mutual

def decEq (a b : Statement) : Decidable (a = b) :=
  match a, b with
  | assign q e, assign q' e' => decidable_of_iff (q = q' ∧ e = e') (by simp)
  | call q as, call q' bs => decidable_of_iff (q = q' ∧ as = bs) (by simp)
  | bare q, bare q' => decidable_of_iff (q = q') (by simp)
  | branch c t none, branch c' t' none =>
    have := decEqList t t'
    decidable_of_iff (c = c' ∧ t = t') (by simp)
  | branch c t (some e), branch c' t' (some e') =>
    have := decEqList t t'
    have := decEqList e e'
    decidable_of_iff (c = c' ∧ t = t' ∧ e = e') (by simp)
  | loop c b, loop c' b' =>
    have := decEqList b b'
    decidable_of_iff (c = c' ∧ b = b') (by simp)
  | leave e, leave e' => decidable_of_iff (e = e') (by simp)
  | branch _ _ none, branch _ _ (some _) | branch _ _ (some _), branch _ _ none => isFalse (by simp)
  | assign .., call .. | assign .., bare _ | assign .., branch .. | assign .., loop ..
  | assign .., leave _ => isFalse (by simp)
  | call .., assign .. | call .., bare _ | call .., branch .. | call .., loop ..
  | call .., leave _ => isFalse (by simp)
  | bare _, assign .. | bare _, call .. | bare _, branch .. | bare _, loop ..
  | bare _, leave _ => isFalse (by simp)
  | branch .., assign .. | branch .., call .. | branch .., bare _ | branch .., loop ..
  | branch .., leave _ => isFalse (by simp)
  | loop .., assign .. | loop .., call .. | loop .., bare _ | loop .., branch ..
  | loop .., leave _ => isFalse (by simp)
  | leave _, assign .. | leave _, call .. | leave _, bare _ | leave _, branch ..
  | leave _, loop .. => isFalse (by simp)

def decEqList (as bs : List Statement) : Decidable (as = bs) :=
  match as, bs with
  | [], [] => isTrue rfl
  | a :: as, b :: bs =>
    have := decEq a b
    have := decEqList as bs
    decidable_of_iff (a = b ∧ as = bs) (by simp)
  | [], _ :: _ => isFalse (by simp)
  | _ :: _, [] => isFalse (by simp)

end

instance : DecidableEq Statement := decEq

end Statement

end ModSyntax
