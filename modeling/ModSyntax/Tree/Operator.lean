import ModSyntax.Token.Kind

/-!
# Operators

The signs and operators of expressions, each with the kind of symbol that stands for it.
-/

namespace ModSyntax

/-- The comparisons between two simple expressions. -/
inductive Relation where
  | equal | notEqual | less | lessEqual | greater | greaterEqual
deriving DecidableEq

namespace Relation

def all : List Relation := [equal, notEqual, less, lessEqual, greater, greaterEqual]

def kind : Relation → Kind
  | equal => .equal
  | notEqual => .hash
  | less => .less
  | lessEqual => .lessEqual
  | greater => .greater
  | greaterEqual => .greaterEqual

def name : Relation → String
  | equal => "Equal"
  | notEqual => "NotEqual"
  | less => "Less"
  | lessEqual => "LessEqual"
  | greater => "Greater"
  | greaterEqual => "GreaterEqual"

def ofKind? (k : Kind) : Option Relation := all.find? (·.kind = k)

def ofName? (n : String) : Option Relation := all.find? (·.name = n)

theorem ofKind?_eq_some_iff {k : Kind} {op : Relation} : ofKind? k = some op ↔ op.kind = k := by
  cases op <;> cases k <;> decide

end Relation

/-- The operators between terms. -/
inductive AddOp where
  | plus | minus | or
deriving DecidableEq

namespace AddOp

def all : List AddOp := [plus, minus, or]

def kind : AddOp → Kind
  | plus => .plus
  | minus => .minus
  | or => .kwOr

def name : AddOp → String
  | plus => "Plus"
  | minus => "Minus"
  | or => "Or"

def ofKind? (k : Kind) : Option AddOp := all.find? (·.kind = k)

def ofName? (n : String) : Option AddOp := all.find? (·.name = n)

theorem ofKind?_eq_some_iff {k : Kind} {op : AddOp} : ofKind? k = some op ↔ op.kind = k := by
  cases op <;> cases k <;> decide

end AddOp

/-- The operators between factors. -/
inductive MulOp where
  | times | slash | div | mod | and
deriving DecidableEq

namespace MulOp

def all : List MulOp := [times, slash, div, mod, and]

def kind : MulOp → Kind
  | times => .star
  | slash => .slash
  | div => .kwDiv
  | mod => .kwMod
  | and => .kwAnd

def name : MulOp → String
  | times => "Times"
  | slash => "Slash"
  | div => "Div"
  | mod => "Mod"
  | and => "And"

def ofKind? (k : Kind) : Option MulOp := all.find? (·.kind = k)

def ofName? (n : String) : Option MulOp := all.find? (·.name = n)

theorem ofKind?_eq_some_iff {k : Kind} {op : MulOp} : ofKind? k = some op ↔ op.kind = k := by
  cases op <;> cases k <;> decide

end MulOp

/-- The sign in front of a simple expression. -/
inductive Sign where
  | plus | minus
deriving DecidableEq

namespace Sign

def all : List Sign := [plus, minus]

def kind : Sign → Kind
  | plus => .plus
  | minus => .minus

def name : Sign → String
  | plus => "Plus"
  | minus => "Minus"

def ofKind? (k : Kind) : Option Sign := all.find? (·.kind = k)

def ofName? (n : String) : Option Sign := all.find? (·.name = n)

theorem ofKind?_eq_some_iff {k : Kind} {op : Sign} : ofKind? k = some op ↔ op.kind = k := by
  cases op <;> cases k <;> decide

end Sign

end ModSyntax
