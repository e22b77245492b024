import ModSyntax.Token.Identifier
import ModSyntax.Tree.Module

/-!
# What a tree holds

The names, literals and lists of names of a tree, in the order in which its text is checked, and the
bodies of its statements.
-/

namespace ModSyntax

/-- A name or literal of a tree, or a list of names as such. -/
inductive Part where
  | name (n : String)
  | literal (value : Int64)
  /-- The names of an import, a variable declaration or a parameter. -/
  | names (ns : List String)
deriving DecidableEq

/-- The part is one that a text can hold: an identifier, an integer without a sign, some names. -/
def Part.Proper : Part → Prop
  | .name n => isIdentifier n = true
  | .literal value => 0 ≤ value.toInt
  | .names ns => ns ≠ []

instance : DecidablePred Part.Proper
  | .name n => inferInstanceAs (Decidable (isIdentifier n = true))
  | .literal value => inferInstanceAs (Decidable (0 ≤ value.toInt))
  | .names ns => inferInstanceAs (Decidable (ns ≠ []))

/-- The names among the parts. -/
def namesOf (ps : List Part) : List String :=
  ps.filterMap fun
    | .name n => some n
    | .literal _ | .names _ => none

@[simp] theorem namesOf_name (n : String) (ps : List Part) :
    namesOf (.name n :: ps) = n :: namesOf ps := rfl

theorem mem_namesOf {n : String} {ps : List Part} : n ∈ namesOf ps ↔ .name n ∈ ps := by
  rw [namesOf, List.mem_filterMap]
  constructor
  · rintro ⟨p, hp, hn⟩
    cases p with
    | name n' => exact Option.some.inj hn ▸ hp
    | literal value => cases hn
    | names ns => cases hn
  · exact fun hn => ⟨.name n, hn, rfl⟩

/-- The segments of a name; a name without any counts as the empty name. -/
def QualifiedName.parts (q : QualifiedName) : List Part :=
  if q.segments = [] then [.name ""] else q.segments.map .name

/-! ## Expressions -/

mutual

def Expr.parts : Expr → List Part
  | .simple e => e.parts
  | .compare _ left right => left.parts ++ right.parts

def SimpleExpr.parts : SimpleExpr → List Part
  | ⟨_, first, rest⟩ => first.parts ++ Term.partsTail rest

def Term.partsTail : List (AddOp × Term) → List Part
  | [] => []
  | (_, t) :: rest => t.parts ++ Term.partsTail rest

def Term.parts : Term → List Part
  | ⟨first, rest⟩ => first.parts ++ Factor.partsTail rest

def Factor.partsTail : List (MulOp × Factor) → List Part
  | [] => []
  | (_, f) :: rest => f.parts ++ Factor.partsTail rest

def Factor.parts : Factor → List Part
  | .int value => [.literal value]
  | .paren e => e.parts
  | .not f => f.parts
  | .ref target => target.parts
  | .call target args => target.parts ++ Expr.partsList args

def Expr.partsList : List Expr → List Part
  | [] => []
  | e :: rest => e.parts ++ Expr.partsList rest

end

/-! ## Statements -/

mutual

def Statement.parts : Statement → List Part
  | .assign target value => target.parts ++ value.parts
  | .call target args => target.parts ++ Expr.partsList args
  | .bare target => target.parts
  | .branch cond thenBody none => cond.parts ++ Statement.partsList thenBody
  | .branch cond thenBody (some elseBody) =>
    cond.parts ++ (Statement.partsList thenBody ++ Statement.partsList elseBody)
  | .loop cond body => cond.parts ++ Statement.partsList body
  | .leave none => []
  | .leave (some value) => value.parts

def Statement.partsList : List Statement → List Part
  | [] => []
  | s :: rest => s.parts ++ Statement.partsList rest

end

/-! ## Declarations, blocks and modules -/

/-- A list of names, and each of them. -/
def nameParts (ns : List String) : List Part := .names ns :: ns.map .name

def Parameter.parts (p : Parameter) : List Part := nameParts p.names ++ p.typeName.parts

def Parameters.parts (p : Parameters) : List Part :=
  p.params.flatMap Parameter.parts ++ (p.result.map QualifiedName.parts).getD []

mutual

def Declaration.parts : Declaration → List Part
  | .constant n value => .name n :: value.parts
  | .vars ns typeName => nameParts ns ++ typeName.parts
  | .procedure p => p.parts

def Procedure.parts : Procedure → List Part
  | ⟨n, parameters, body, endName⟩ =>
    .name n :: ((parameters.map Parameters.parts).getD [] ++ (body.parts ++ [.name endName]))

def Block.parts : Block → List Part
  | ⟨declarations, statements⟩ =>
    Declaration.partsList declarations ++ Statement.partsList statements

def Declaration.partsList : List Declaration → List Part
  | [] => []
  | d :: rest => d.parts ++ Declaration.partsList rest

end

theorem Declaration.partsList_append (ds es : List Declaration) :
    Declaration.partsList (ds ++ es) = Declaration.partsList ds ++ Declaration.partsList es := by
  induction ds with
  | nil => rfl
  | cons d ds ih => simp [Declaration.partsList, ih]

def Import.parts (i : Import) : List Part :=
  nameParts i.names ++ (i.source.map Part.name).toList

def Module.parts (m : Module) : List Part :=
  .name m.name :: (m.imports.flatMap Import.parts ++ (m.block.parts ++ [.name m.endName]))

/-- The names of a module, in the order in which they are checked. -/
def Module.names (m : Module) : List String := namesOf m.parts

/-- What can be made of any text: every part is proper, but the two names of the module may be
missing. -/
structure Module.Salvaged (m : Module) : Prop where
  name : m.name = "" ∨ isIdentifier m.name = true
  imports : ∀ p ∈ m.imports.flatMap Import.parts, p.Proper
  block : ∀ p ∈ m.block.parts, p.Proper
  endName : m.endName = "" ∨ isIdentifier m.endName = true

/-! ## Bodies -/

mutual

/-- The statements behind every `THEN`, `ELSE` and `DO`. -/
def Statement.bodies : Statement → List (List Statement)
  | .branch _ thenBody none => thenBody :: Statement.bodiesList thenBody
  | .branch _ thenBody (some elseBody) =>
    thenBody :: Statement.bodiesList thenBody ++ elseBody :: Statement.bodiesList elseBody
  | .loop _ body => body :: Statement.bodiesList body
  | .assign .. | .call .. | .bare _ | .leave _ => []

def Statement.bodiesList : List Statement → List (List Statement)
  | [] => []
  | s :: rest => s.bodies ++ Statement.bodiesList rest

end

mutual

def Declaration.bodies : Declaration → List (List Statement)
  | .constant .. | .vars .. => []
  | .procedure p => p.bodies

def Procedure.bodies : Procedure → List (List Statement)
  | ⟨_, _, body, _⟩ => body.bodies

def Block.bodies : Block → List (List Statement)
  | ⟨declarations, statements⟩ =>
    Declaration.bodiesList declarations ++ Statement.bodiesList statements

def Declaration.bodiesList : List Declaration → List (List Statement)
  | [] => []
  | d :: rest => d.bodies ++ Declaration.bodiesList rest

end

def Module.bodies (m : Module) : List (List Statement) := m.block.bodies

end ModSyntax
