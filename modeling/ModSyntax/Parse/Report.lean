import ModSyntax.Diagnostic
import ModSyntax.Token.Basic

/-!
# Reports of the parser

The parser says what is wrong at the index of a symbol. A diagnostic is made from a report
afterwards, from the tokens that were read: only then do positions come in.
-/

namespace ModSyntax

/-- The constructs of the language that messages name. -/
inductive Construct where
  | compilationUnit | imports | block | constant | vars | procedure | parameters | parameter
  | statementSequence | statement | ifStatement | whileStatement | expression | factor
deriving DecidableEq

def Construct.name : Construct → String
  | compilationUnit => "compilation unit"
  | imports => "import"
  | block => "block"
  | constant => "constant declaration"
  | vars => "variable declaration"
  | procedure => "procedure declaration"
  | parameters => "formal parameters"
  | parameter => "formal parameter"
  | statementSequence => "statement sequence"
  | statement => "statement"
  | ifStatement => "if statement"
  | whileStatement => "while statement"
  | expression => "expression"
  | factor => "factor"

/-- What the parser finds wrong. -/
inductive Complaint where
  /-- `rule` goes on with one of the expected kinds only. -/
  | unexpected (rule : Construct) (expected : List Kind)
  /-- The digits stand for no 64-bit value. -/
  | outOfRange (lexeme : String)
deriving DecidableEq

/-- A complaint about the symbol at an index; the end of the input has the index behind the last
symbol. -/
structure Report where
  index : Nat
  complaint : Complaint
deriving DecidableEq

/-- The tokens, with an end of input behind them if they do not close with one. -/
def terminated (ts : List Token) : List Token :=
  if ts.getLast?.any (·.kind = .eof) then ts
  else ts ++ [.eof ((ts.getLast?.map (·.position)).getD .start)]

/-- The tokens that are parsed, and the position of their end. -/
structure TokenStream where
  body : List Token
  stop : Position

namespace TokenStream

/-- The tokens before the first end of input. The end is where that token stands, or else where the
last token does. -/
def ofTokens (ts : List Token) : TokenStream where
  body := ts.takeWhile (·.kind ≠ .eof)
  stop :=
    match ts.find? (·.kind = .eof) with
    | some t => t.position
    | none => (ts.getLast?.map (·.position)).getD .start

def symbols (ts : TokenStream) : List Symbol := ts.body.map Token.toSymbol

/-- The position of the symbol at an index, or of the end. -/
def positionAt (ts : TokenStream) (index : Nat) : Position :=
  (ts.body[index]?.map (·.position)).getD ts.stop

end TokenStream

namespace Report

/-- What the report says about the symbol it complains of; `none` is the end of the input. -/
def problem (r : Report) (found? : Option Symbol) : Problem :=
  match r.complaint, found? with
  | .unexpected rule expected, some found =>
    .unexpected found.display rule.name (expected.map Kind.spelling)
  | .unexpected rule expected, none => .unterminated rule.name (expected.map Kind.spelling)
  | .outOfRange lexeme, _ => .outOfRange lexeme

/-- The diagnostic for a report on a stream of tokens. -/
def diagnostic (ts : TokenStream) (r : Report) : Diagnostic :=
  ⟨ts.positionAt r.index, r.problem (ts.body[r.index]?.map Token.toSymbol)⟩

/-- The reports without those that follow another one about the same symbol: a mistake is not
reported again by the constructs around it. -/
def firstPerSymbol : List Report → List Report
  | [] => []
  | r :: rs => r :: afterIndex r.index rs
where
  afterIndex (last : Nat) : List Report → List Report
    | [] => []
    | r :: rs => if r.index = last then afterIndex last rs else r :: afterIndex r.index rs

end Report

end ModSyntax
