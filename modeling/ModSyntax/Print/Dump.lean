import ModSyntax.Tree.Module

/-!
# Dump of a tree

The tree as nested records, fields by name, one part to a line. It shows the shape of a module, not
its text.
-/

namespace ModSyntax

/-- A value written down by its parts. -/
inductive Dump where
  | word (text : String)
  | record (name : String) (fields : List (String × Dump))
  /-- Parts by position, behind a name or behind none. -/
  | tuple (name : String) (parts : List Dump)
  | list (parts : List Dump)

namespace Dump

/-- Quoted text. Names hold letters, digits and underscores only, so nothing is escaped. -/
def text (s : String) : Dump := .word ("\"" ++ s ++ "\"")

def option : Option Dump → Dump
  | none => .word "None"
  | some d => .tuple "Some" [d]

def texts (ss : List String) : Dump := .list (ss.map text)

/-- `before`, then four spaces for each level. -/
def indent (before : String) (level : Nat) : String := before.pushn ' ' (4 * level)

mutual

/-- `before`, then the value at a level. -/
def write (before : String) (level : Nat) : Dump → String
  | word text => before ++ text
  | record name fields =>
    indent (writeFields (before ++ name ++ " \x7b\n") (level + 1) fields) level ++ "\x7d"
  | tuple name parts => indent (writeParts (before ++ name ++ "(\n") (level + 1) parts) level ++ ")"
  | list [] => before ++ "[]"
  | list (part :: parts) =>
    indent (writeParts (part.write (indent (before ++ "[\n") (level + 1)) (level + 1) ++ ",\n")
      (level + 1) parts) level ++ "]"

def writeFields (before : String) (level : Nat) : List (String × Dump) → String
  | [] => before
  | (name, value) :: rest =>
    writeFields (value.write (indent before level ++ name ++ ": ") level ++ ",\n") level rest

def writeParts (before : String) (level : Nat) : List Dump → String
  | [] => before
  | part :: rest => writeParts (part.write (indent before level) level ++ ",\n") level rest

end

instance : ToString Dump := ⟨write "" 0⟩

end Dump

def QualifiedName.dump (q : QualifiedName) : Dump :=
  .record "Qualident" [("segments", .texts q.segments)]

/-! ## Expressions -/

mutual

def Expr.dump : Expr → Dump
  | .simple e => .tuple "Simple" [e.dump]
  | .compare op left right =>
    .record "Relational" [("op", .word op.name), ("left", left.dump), ("right", right.dump)]

def SimpleExpr.dump : SimpleExpr → Dump
  | ⟨sign, first, rest⟩ =>
    .record "SimpleExpr"
      [("sign", .option (sign.map (.word ·.name))), ("first", first.dump),
       ("rest", .list (Term.dumpTail rest))]

def Term.dumpTail : List (AddOp × Term) → List Dump
  | [] => []
  | (op, t) :: rest => .tuple "" [.word op.name, t.dump] :: Term.dumpTail rest

def Term.dump : Term → Dump
  | ⟨first, rest⟩ =>
    .record "Term" [("first", first.dump), ("rest", .list (Factor.dumpTail rest))]

def Factor.dumpTail : List (MulOp × Factor) → List Dump
  | [] => []
  | (op, f) :: rest => .tuple "" [.word op.name, f.dump] :: Factor.dumpTail rest

def Factor.dump : Factor → Dump
  | .int value => .tuple "IntLit" [.word (toString value.toInt)]
  | .paren e => .tuple "Paren" [e.dump]
  | .not f => .tuple "Not" [f.dump]
  | .ref target => .record "Ref" [("target", target.dump), ("args", .option none)]
  | .call target args =>
    .record "Ref" [("target", target.dump), ("args", .option (some (.list (Expr.dumps args))))]

def Expr.dumps : List Expr → List Dump
  | [] => []
  | e :: rest => e.dump :: Expr.dumps rest

end

/-! ## Statements -/

mutual

def Statement.dump : Statement → Dump
  | .assign target value => .record "Assign" [("target", target.dump), ("value", value.dump)]
  | .call target args =>
    .record "Call" [("target", target.dump), ("args", .list (Expr.dumps args))]
  | .bare target => .record "BareRef" [("target", target.dump)]
  | .branch cond thenBody none =>
    .record "If" [("cond", cond.dump), ("then_body", .list (Statement.dumps thenBody)),
      ("else_body", .option none)]
  | .branch cond thenBody (some elseBody) =>
    .record "If" [("cond", cond.dump), ("then_body", .list (Statement.dumps thenBody)),
      ("else_body", .option (some (.list (Statement.dumps elseBody))))]
  | .loop cond body =>
    .record "While" [("cond", cond.dump), ("body", .list (Statement.dumps body))]
  | .leave value => .record "Return" [("value", .option (value.map Expr.dump))]

def Statement.dumps : List Statement → List Dump
  | [] => []
  | s :: rest => s.dump :: Statement.dumps rest

end

/-! ## Declarations and modules -/

def Parameter.dump (p : Parameter) : Dump :=
  .record "FormalParameter"
    [("is_var", .word (if p.byReference then "true" else "false")), ("names", .texts p.names),
     ("type_name", p.typeName.dump)]

def Parameters.dump (p : Parameters) : Dump :=
  .record "FormalParameters"
    [("params", .list (p.params.map Parameter.dump)),
     ("return_type", .option (p.result.map QualifiedName.dump))]

mutual

def Declaration.dump : Declaration → Dump
  | .constant name value =>
    .tuple "Const" [.record "ConstDecl" [("name", .text name), ("value", value.dump)]]
  | .vars names typeName =>
    .tuple "Var" [.record "VarDecl" [("names", .texts names), ("type_name", typeName.dump)]]
  | .procedure p => .tuple "Procedure" [p.dump]

def Procedure.dump : Procedure → Dump
  | ⟨name, parameters, body, endName⟩ =>
    .record "ProcedureDecl"
      [("name", .text name), ("params", .option (parameters.map Parameters.dump)),
       ("body", body.dump), ("end_name", .text endName)]

def Block.dump : Block → Dump
  | ⟨declarations, statements⟩ =>
    .record "Block"
      [("declarations", .list (Declaration.dumps declarations)),
       ("statements", .list (Statement.dumps statements))]

def Declaration.dumps : List Declaration → List Dump
  | [] => []
  | d :: rest => d.dump :: Declaration.dumps rest

end

def Import.dump (i : Import) : Dump :=
  .record "Import" [("from_module", .option (i.source.map .text)), ("names", .texts i.names)]

def Module.dump (m : Module) : Dump :=
  .record "CompilationUnit"
    [("name", .text m.name), ("imports", .list (m.imports.map Import.dump)),
     ("block", m.block.dump), ("end_name", .text m.endName)]

end ModSyntax
