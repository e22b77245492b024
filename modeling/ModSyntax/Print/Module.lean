import ModSyntax.Print.Expr
import ModSyntax.Tree.Module

/-!
# Canonical text of modules

A declaration, a heading and a statement each have a line; what is inside a construct is indented by
one level. Every constant and every variable declaration has a `CONST` or `VAR` of its own, `BEGIN`
is written only before statements, and statements are parted, not ended, by semicolons.
-/

namespace ModSyntax

open Layout

mutual

/-- A statement at a level; its last line is left open. -/
def Statement.layout (level : Nat) : Statement → Except InvalidIdentifier Layout
  | .assign target value => do
    let target ← qualifiedName target
    let value ← value.layout
    return indent level :: target ++ spaced .becomes ++ value
  | .call target args => do
    let target ← qualifiedName target
    let args ← Expr.layouts args
    return indent level :: target ++ [word .lparen] ++ commas args ++ [word .rparen]
  | .bare target => do
    let target ← qualifiedName target
    return indent level :: target
  | .branch cond thenBody none => do
    let cond ← cond.layout
    let thenBody ← Statement.layoutList (level + 1) thenBody
    return line level ([word .kwIf, space] ++ cond ++ [space, word .kwThen]) ++ thenBody ++
      [indent level, word .kwEnd]
  | .branch cond thenBody (some elseBody) => do
    let cond ← cond.layout
    let thenBody ← Statement.layoutList (level + 1) thenBody
    let elseBody ← Statement.layoutList (level + 1) elseBody
    return line level ([word .kwIf, space] ++ cond ++ [space, word .kwThen]) ++ thenBody ++
      line level [word .kwElse] ++ elseBody ++ [indent level, word .kwEnd]
  | .loop cond body => do
    let cond ← cond.layout
    let body ← Statement.layoutList (level + 1) body
    return line level ([word .kwWhile, space] ++ cond ++ [space, word .kwDo]) ++ body ++
      [indent level, word .kwEnd]
  | .leave none => return [indent level, word .kwReturn]
  | .leave (some value) => do
    let value ← value.layout
    return [indent level, word .kwReturn, space] ++ value

/-- Statements on lines of their own, with a semicolon behind all but the last. -/
def Statement.layoutList (level : Nat) : List Statement → Except InvalidIdentifier Layout
  | [] => return []
  | s :: rest => do
    let s ← Statement.layout level s
    let more ← Statement.layoutList level rest
    return s ++ (if rest.isEmpty then [newline] else [word .semicolon, newline]) ++ more

end

def Parameter.layout (p : Parameter) : Except InvalidIdentifier Layout := do
  let ns ← identifiers p.names
  let typeName ← qualifiedName p.typeName
  return (if p.byReference then [word .kwVar, space] else []) ++ ns ++ [word .colon, space] ++ typeName

def Parameters.layout (p : Parameters) : Except InvalidIdentifier Layout := do
  let params ← p.params.mapM Parameter.layout
  let result ←
    match p.result with
    | none => pure []
    | some q => do
      let q ← qualifiedName q
      pure ([word .colon, space] ++ q)
  return [word .lparen] ++ List.intercalate [word .semicolon, space] params ++ [word .rparen] ++
    result

mutual

def Declaration.layout (level : Nat) : Declaration → Except InvalidIdentifier Layout
  | .constant n value => do
    let n ← identifier n
    let value ← value.layout
    return line level ([word .kwConst, space] ++ n ++ spaced .equal ++ value ++ [word .semicolon])
  | .vars ns typeName => do
    let ns ← identifiers ns
    let typeName ← qualifiedName typeName
    return line level
      ([word .kwVar, space] ++ ns ++ [word .colon, space] ++ typeName ++ [word .semicolon])
  | .procedure p => p.layout level

def Procedure.layout (level : Nat) : Procedure → Except InvalidIdentifier Layout
  | ⟨n, parameters, body, endName⟩ => do
    let n ← identifier n
    let parameters ←
      match parameters with
      | none => pure []
      | some p => p.layout
    let body ← body.layout level
    let endName ← identifier endName
    return line level ([word .kwProcedure, space] ++ n ++ parameters ++ [word .semicolon]) ++ body ++
      line level ([word .kwEnd, space] ++ endName ++ [word .semicolon])

/-- The declarations and statements of a block, up to its end. -/
def Block.layout (level : Nat) : Block → Except InvalidIdentifier Layout
  | ⟨declarations, statements⟩ => do
    let ds ← Declaration.layoutList (level + 1) declarations
    let ss ← Statement.layoutList (level + 1) statements
    return ds ++ (if statements.isEmpty then [] else line level [word .kwBegin]) ++ ss

def Declaration.layoutList (level : Nat) : List Declaration → Except InvalidIdentifier Layout
  | [] => return []
  | d :: rest => do
    let d ← d.layout level
    let rest ← Declaration.layoutList level rest
    return d ++ rest

end

def Import.layout (i : Import) : Except InvalidIdentifier Layout := do
  let ns ← identifiers i.names
  let source ←
    match i.source with
    | none => pure []
    | some m => do
      let m ← identifier m
      pure ([word .kwFrom, space] ++ m ++ [space])
  return line 0 (source ++ [word .kwImport, space] ++ ns ++ [word .semicolon])

def Module.layout (m : Module) : Except InvalidIdentifier Layout := do
  let n ← identifier m.name
  let imports ← m.imports.mapM Import.layout
  let block ← m.block.layout 0
  let endName ← identifier m.endName
  return line 0 ([word .kwModule, space] ++ n ++ [word .semicolon]) ++ imports.flatten ++ block ++
    line 0 ([word .kwEnd, space] ++ endName ++ [word .period])

/-- The canonical text of a module. A name is the one thing that can be wrong with it: the text is a
string, and writing to a string cannot fail, so that `Error.output` is never the reason. -/
def Module.print (m : Module) : Except InvalidIdentifier String := Layout.text <$> m.layout

end ModSyntax
