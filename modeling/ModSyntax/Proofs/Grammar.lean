import ModSyntax.Parse.Literal
import ModSyntax.Token.Basic
import ModSyntax.Tree.Module

/-!
# The grammar

The language as a relation between symbols and trees, apart from any way to parse. `Derives p w t`
says that the symbols `w` make a phrase `p` with the tree `t`. There is one constructor for every
alternative of a production; what the productions repeat, `{ … }`, is a phrase of its own that is
either empty or one item with the others behind it.

The characters of words and marks do not matter: any symbol of the right kind will do. Those of an
integer have to stand for a 64-bit value.
-/

namespace ModSyntax

/-- The kinds of phrases. The phrases `more…` are what is repeated behind the first item of a list,
each item behind its operator or separator. -/
inductive Phrase where
  | compilationUnit | imports | importItem
  | block | declarations | declaration | constDecls | constant | varDecls | vars | procedure
  | parameters | parameterList | moreParameters | parameter
  | sequence | moreStatements | statement
  | arguments | exprList | moreExprs | expr | simpleExpr | moreTerms | term | moreFactors | factor
  | qualident | moreSegments | identList | moreNames

namespace Phrase

/-- The trees of a kind of phrase. A declaration may be a whole section, so its tree is a list. -/
@[reducible] def Tree : Phrase → Type
  | compilationUnit => Module
  | imports => List Import
  | importItem => Import
  | block => Block
  | declarations | declaration | constDecls | varDecls => List Declaration
  | constant | vars | procedure => Declaration
  | parameters => Parameters
  | parameterList | moreParameters => List Parameter
  | parameter => Parameter
  | sequence | moreStatements => List Statement
  | statement => Statement
  | arguments | exprList | moreExprs => List Expr
  | expr => Expr
  | simpleExpr => SimpleExpr
  | moreTerms => List (AddOp × Term)
  | term => Term
  | moreFactors => List (MulOp × Factor)
  | factor => Factor
  | qualident => QualifiedName
  | moreSegments | identList | moreNames => List String

end Phrase

/-- The symbols make a phrase with this tree. -/
inductive Derives : (p : Phrase) → List Symbol → p.Tree → Prop where
  /-- `compilationUnit = "MODULE" ident ";" { import } block ident "."` -/
  | compilationUnit {l₁ n l₂ u is v b m l₃} :
      Derives .imports u is → Derives .block v b →
      Derives .compilationUnit
        (⟨.kwModule, l₁⟩ :: ⟨.identifier, n⟩ :: ⟨.semicolon, l₂⟩ ::
          (u ++ (v ++ [⟨.identifier, m⟩, ⟨.period, l₃⟩]))) ⟨n, is, b, m⟩
  | noImports : Derives .imports [] []
  | imports {u i v is} :
      Derives .importItem u i → Derives .imports v is → Derives .imports (u ++ v) (i :: is)
  /-- `import = [ "FROM" ident ] "IMPORT" identList ";"` -/
  | importModules {l₁ u ns l₂} :
      Derives .identList u ns →
      Derives .importItem (⟨.kwImport, l₁⟩ :: (u ++ [⟨.semicolon, l₂⟩])) ⟨none, ns⟩
  | importFrom {l₁ m l₂ u ns l₃} :
      Derives .identList u ns →
      Derives .importItem
        (⟨.kwFrom, l₁⟩ :: ⟨.identifier, m⟩ :: ⟨.kwImport, l₂⟩ :: (u ++ [⟨.semicolon, l₃⟩]))
        ⟨some m, ns⟩
  /-- `block = { declaration } [ "BEGIN" statementSequence ] "END"` -/
  | block {u ds l} :
      Derives .declarations u ds → Derives .block (u ++ [⟨.kwEnd, l⟩]) ⟨ds, []⟩
  | blockWithBody {u ds l₁ v ss l₂} :
      Derives .declarations u ds → Derives .sequence v ss →
      Derives .block (u ++ ⟨.kwBegin, l₁⟩ :: (v ++ [⟨.kwEnd, l₂⟩])) ⟨ds, ss⟩
  | noDeclarations : Derives .declarations [] []
  | declarations {u ds v es} :
      Derives .declaration u ds → Derives .declarations v es →
      Derives .declarations (u ++ v) (ds ++ es)
  /-- `declaration = "CONST" { constDecl ";" } | "VAR" { varDecl ";" } | procedureDecl ";"` -/
  | constSection {l u ds} :
      Derives .constDecls u ds → Derives .declaration (⟨.kwConst, l⟩ :: u) ds
  | varSection {l u ds} :
      Derives .varDecls u ds → Derives .declaration (⟨.kwVar, l⟩ :: u) ds
  | procedureSection {u d l} :
      Derives .procedure u d → Derives .declaration (u ++ [⟨.semicolon, l⟩]) [d]
  | noConstDecls : Derives .constDecls [] []
  | constDecls {u d l v ds} :
      Derives .constant u d → Derives .constDecls v ds →
      Derives .constDecls (u ++ ⟨.semicolon, l⟩ :: v) (d :: ds)
  | noVarDecls : Derives .varDecls [] []
  | varDecls {u d l v ds} :
      Derives .vars u d → Derives .varDecls v ds →
      Derives .varDecls (u ++ ⟨.semicolon, l⟩ :: v) (d :: ds)
  /-- `constDecl = ident "=" expression` -/
  | constant {n l u e} :
      Derives .expr u e →
      Derives .constant (⟨.identifier, n⟩ :: ⟨.equal, l⟩ :: u) (.constant n e)
  /-- `varDecl = identList ":" qualident` -/
  | vars {u ns l v q} :
      Derives .identList u ns → Derives .qualident v q →
      Derives .vars (u ++ ⟨.colon, l⟩ :: v) (.vars ns q)
  /-- `procedureDecl = "PROCEDURE" ident [ formalParameters ] ";" block ident` -/
  | procedure {l₁ n l₂ u b m} :
      Derives .block u b →
      Derives .procedure
        (⟨.kwProcedure, l₁⟩ :: ⟨.identifier, n⟩ :: ⟨.semicolon, l₂⟩ :: (u ++ [⟨.identifier, m⟩]))
        (.procedure ⟨n, none, b, m⟩)
  | procedureWith {l₁ n u ps l₂ v b m} :
      Derives .parameters u ps → Derives .block v b →
      Derives .procedure
        (⟨.kwProcedure, l₁⟩ :: ⟨.identifier, n⟩ ::
          (u ++ ⟨.semicolon, l₂⟩ :: (v ++ [⟨.identifier, m⟩])))
        (.procedure ⟨n, some ps, b, m⟩)
  /-- `formalParameters = "(" [ formalParameter { ";" formalParameter } ] ")" [ ":" qualident ]` -/
  | parameters {l₁ u ps l₂} :
      Derives .parameterList u ps →
      Derives .parameters (⟨.lparen, l₁⟩ :: (u ++ [⟨.rparen, l₂⟩])) ⟨ps, none⟩
  | parametersWithResult {l₁ u ps l₂ l₃ v q} :
      Derives .parameterList u ps → Derives .qualident v q →
      Derives .parameters (⟨.lparen, l₁⟩ :: (u ++ ⟨.rparen, l₂⟩ :: ⟨.colon, l₃⟩ :: v)) ⟨ps, some q⟩
  | noParameters : Derives .parameterList [] []
  | parameterList {u p v ps} :
      Derives .parameter u p → Derives .moreParameters v ps →
      Derives .parameterList (u ++ v) (p :: ps)
  | noMoreParameters : Derives .moreParameters [] []
  | moreParameters {l u p v ps} :
      Derives .parameter u p → Derives .moreParameters v ps →
      Derives .moreParameters (⟨.semicolon, l⟩ :: (u ++ v)) (p :: ps)
  /-- `formalParameter = [ "VAR" ] identList ":" qualident` -/
  | valueParameter {u ns l v q} :
      Derives .identList u ns → Derives .qualident v q →
      Derives .parameter (u ++ ⟨.colon, l⟩ :: v) ⟨false, ns, q⟩
  | varParameter {l₁ u ns l₂ v q} :
      Derives .identList u ns → Derives .qualident v q →
      Derives .parameter (⟨.kwVar, l₁⟩ :: (u ++ ⟨.colon, l₂⟩ :: v)) ⟨true, ns, q⟩
  /-- `statementSequence = statement { ";" statement }` -/
  | sequence {u s v ss} :
      Derives .statement u s → Derives .moreStatements v ss →
      Derives .sequence (u ++ v) (s :: ss)
  | noMoreStatements : Derives .moreStatements [] []
  | moreStatements {l u s v ss} :
      Derives .statement u s → Derives .moreStatements v ss →
      Derives .moreStatements (⟨.semicolon, l⟩ :: (u ++ v)) (s :: ss)
  /-- `statement = qualident ( ":=" expression | [ arguments ] ) | ifStatement | whileStatement
  | "RETURN" [ expression ]` -/
  | assign {u q l v e} :
      Derives .qualident u q → Derives .expr v e →
      Derives .statement (u ++ ⟨.becomes, l⟩ :: v) (.assign q e)
  | callStatement {u q v es} :
      Derives .qualident u q → Derives .arguments v es → Derives .statement (u ++ v) (.call q es)
  | bare {u q} : Derives .qualident u q → Derives .statement u (.bare q)
  /-- `ifStatement = "IF" expression "THEN" statementSequence [ "ELSE" statementSequence ] "END"` -/
  | branch {l₁ u e l₂ v ss l₃} :
      Derives .expr u e → Derives .sequence v ss →
      Derives .statement
        (⟨.kwIf, l₁⟩ :: (u ++ ⟨.kwThen, l₂⟩ :: (v ++ [⟨.kwEnd, l₃⟩]))) (.branch e ss none)
  | branchElse {l₁ u e l₂ v ss l₃ w ts l₄} :
      Derives .expr u e → Derives .sequence v ss → Derives .sequence w ts →
      Derives .statement
        (⟨.kwIf, l₁⟩ :: (u ++ ⟨.kwThen, l₂⟩ :: (v ++ ⟨.kwElse, l₃⟩ :: (w ++ [⟨.kwEnd, l₄⟩]))))
        (.branch e ss (some ts))
  /-- `whileStatement = "WHILE" expression "DO" statementSequence "END"` -/
  | loop {l₁ u e l₂ v ss l₃} :
      Derives .expr u e → Derives .sequence v ss →
      Derives .statement
        (⟨.kwWhile, l₁⟩ :: (u ++ ⟨.kwDo, l₂⟩ :: (v ++ [⟨.kwEnd, l₃⟩]))) (.loop e ss)
  | leave {l} : Derives .statement [⟨.kwReturn, l⟩] (.leave none)
  | leaveWith {l u e} :
      Derives .expr u e → Derives .statement (⟨.kwReturn, l⟩ :: u) (.leave (some e))
  /-- `arguments = "(" [ expList ] ")"` -/
  | noArguments {l₁ l₂} : Derives .arguments [⟨.lparen, l₁⟩, ⟨.rparen, l₂⟩] []
  | arguments {l₁ u es l₂} :
      Derives .exprList u es →
      Derives .arguments (⟨.lparen, l₁⟩ :: (u ++ [⟨.rparen, l₂⟩])) es
  /-- `expList = expression { "," expression }` -/
  | exprList {u e v es} :
      Derives .expr u e → Derives .moreExprs v es → Derives .exprList (u ++ v) (e :: es)
  | noMoreExprs : Derives .moreExprs [] []
  | moreExprs {l u e v es} :
      Derives .expr u e → Derives .moreExprs v es →
      Derives .moreExprs (⟨.comma, l⟩ :: (u ++ v)) (e :: es)
  /-- `expression = simpleExpression [ relation simpleExpression ]` -/
  | simple {u e} : Derives .simpleExpr u e → Derives .expr u (.simple e)
  | compare {u a l v b} (op : Relation) :
      Derives .simpleExpr u a → Derives .simpleExpr v b →
      Derives .expr (u ++ ⟨op.kind, l⟩ :: v) (.compare op a b)
  /-- `simpleExpression = [ "+" | "-" ] term { ( "+" | "-" | "OR" ) term }` -/
  | unsigned {u t v ts} :
      Derives .term u t → Derives .moreTerms v ts → Derives .simpleExpr (u ++ v) ⟨none, t, ts⟩
  | signed {l u t v ts} (sign : Sign) :
      Derives .term u t → Derives .moreTerms v ts →
      Derives .simpleExpr (⟨sign.kind, l⟩ :: (u ++ v)) ⟨some sign, t, ts⟩
  | noMoreTerms : Derives .moreTerms [] []
  | moreTerms {l u t v ts} (op : AddOp) :
      Derives .term u t → Derives .moreTerms v ts →
      Derives .moreTerms (⟨op.kind, l⟩ :: (u ++ v)) ((op, t) :: ts)
  /-- `term = factor { ( "*" | "/" | "DIV" | "MOD" | "AND" ) factor }` -/
  | term {u f v fs} :
      Derives .factor u f → Derives .moreFactors v fs → Derives .term (u ++ v) ⟨f, fs⟩
  | noMoreFactors : Derives .moreFactors [] []
  | moreFactors {l u f v fs} (op : MulOp) :
      Derives .factor u f → Derives .moreFactors v fs →
      Derives .moreFactors (⟨op.kind, l⟩ :: (u ++ v)) ((op, f) :: fs)
  /-- `factor = integer | "(" expression ")" | "NOT" factor | qualident [ arguments ]` -/
  | int {l v} : literalValue? l = some v → Derives .factor [⟨.integer, l⟩] (.int v)
  | paren {l₁ u e l₂} :
      Derives .expr u e →
      Derives .factor (⟨.lparen, l₁⟩ :: (u ++ [⟨.rparen, l₂⟩])) (.paren e)
  | not {l u f} : Derives .factor u f → Derives .factor (⟨.kwNot, l⟩ :: u) (.not f)
  | ref {u q} : Derives .qualident u q → Derives .factor u (.ref q)
  | call {u q v es} :
      Derives .qualident u q → Derives .arguments v es → Derives .factor (u ++ v) (.call q es)
  /-- `qualident = ident { "." ident }` -/
  | qualident {n u ns} :
      Derives .moreSegments u ns → Derives .qualident (⟨.identifier, n⟩ :: u) ⟨n :: ns⟩
  | noMoreSegments : Derives .moreSegments [] []
  | moreSegments {l n u ns} :
      Derives .moreSegments u ns →
      Derives .moreSegments (⟨.period, l⟩ :: ⟨.identifier, n⟩ :: u) (n :: ns)
  /-- `identList = ident { "," ident }` -/
  | identList {n u ns} :
      Derives .moreNames u ns → Derives .identList (⟨.identifier, n⟩ :: u) (n :: ns)
  | noMoreNames : Derives .moreNames [] []
  | moreNames {l n u ns} :
      Derives .moreNames u ns →
      Derives .moreNames (⟨.comma, l⟩ :: ⟨.identifier, n⟩ :: u) (n :: ns)

/-- The symbols are a whole module with this tree. -/
def Sentence (word : List Symbol) (m : Module) : Prop := Derives .compilationUnit word m

end ModSyntax
