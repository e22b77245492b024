/-!
# Kinds of symbols

The words and marks of the language, the two open classes (identifiers and integers) and the end of
the input. A kind with a fixed form is written by its `spelling`.
-/

namespace ModSyntax

/-- What a symbol is, apart from the characters it is written with. -/
inductive Kind where
  | kwModule | kwFrom | kwImport | kwBegin | kwEnd | kwConst | kwVar | kwProcedure | kwReturn
  | kwIf | kwThen | kwElse | kwWhile | kwDo | kwOr | kwDiv | kwMod | kwAnd | kwNot
  | semicolon | period | equal | colon | lparen | rparen | becomes | comma | hash
  | less | lessEqual | greater | greaterEqual | plus | minus | star | slash
  | identifier | integer | eof
deriving DecidableEq

namespace Kind

/-- The reserved words. -/
def keywords : List Kind :=
  [kwModule, kwFrom, kwImport, kwBegin, kwEnd, kwConst, kwVar, kwProcedure, kwReturn, kwIf, kwThen,
   kwElse, kwWhile, kwDo, kwOr, kwDiv, kwMod, kwAnd, kwNot]

/-- The marks, written with one or two characters. -/
def marks : List Kind :=
  [semicolon, period, equal, colon, lparen, rparen, becomes, comma, hash, less, lessEqual, greater,
   greaterEqual, plus, minus, star, slash]

def all : List Kind := keywords ++ marks ++ [identifier, integer, eof]

theorem mem_all (k : Kind) : k ∈ all := by cases k <;> decide

/-- The form of a word or mark; for the other kinds, the phrase that messages use. -/
def spelling : Kind → String
  | kwModule => "MODULE"
  | kwFrom => "FROM"
  | kwImport => "IMPORT"
  | kwBegin => "BEGIN"
  | kwEnd => "END"
  | kwConst => "CONST"
  | kwVar => "VAR"
  | kwProcedure => "PROCEDURE"
  | kwReturn => "RETURN"
  | kwIf => "IF"
  | kwThen => "THEN"
  | kwElse => "ELSE"
  | kwWhile => "WHILE"
  | kwDo => "DO"
  | kwOr => "OR"
  | kwDiv => "DIV"
  | kwMod => "MOD"
  | kwAnd => "AND"
  | kwNot => "NOT"
  | semicolon => ";"
  | period => "."
  | equal => "="
  | colon => ":"
  | lparen => "("
  | rparen => ")"
  | becomes => ":="
  | comma => ","
  | hash => "#"
  | less => "<"
  | lessEqual => "<="
  | greater => ">"
  | greaterEqual => ">="
  | plus => "+"
  | minus => "-"
  | star => "*"
  | slash => "/"
  | identifier => "Identifier"
  | integer => "IntegerLiteral"
  | eof => "end of input"

/-- The name of the kind in a token listing. -/
def name : Kind → String
  | kwModule => "Module"
  | kwFrom => "From"
  | kwImport => "Import"
  | kwBegin => "Begin"
  | kwEnd => "End"
  | kwConst => "Const"
  | kwVar => "Var"
  | kwProcedure => "Procedure"
  | kwReturn => "Return"
  | kwIf => "If"
  | kwThen => "Then"
  | kwElse => "Else"
  | kwWhile => "While"
  | kwDo => "Do"
  | kwOr => "Or"
  | kwDiv => "Div"
  | kwMod => "Mod"
  | kwAnd => "And"
  | kwNot => "Not"
  | semicolon => "Semicolon"
  | period => "Period"
  | equal => "Equal"
  | colon => "Colon"
  | lparen => "LParen"
  | rparen => "RParen"
  | becomes => "ColonEqual"
  | comma => "Comma"
  | hash => "Hash"
  | less => "Less"
  | lessEqual => "LessEqual"
  | greater => "Greater"
  | greaterEqual => "GreaterEqual"
  | plus => "Plus"
  | minus => "Minus"
  | star => "Star"
  | slash => "Slash"
  | identifier => "Identifier"
  | integer => "IntegerLiteral"
  | eof => "Eof"

/-- The kind listed under `name`. -/
def ofName? (name : String) : Option Kind := all.find? (·.name = name)

/-- The reserved word spelled `word`, in exactly these letters. -/
def keyword? (word : String) : Option Kind := keywords.find? (·.spelling = word)

def isKeyword (k : Kind) : Bool := k ∈ keywords

/-- The comparisons that may stand between two simple expressions. -/
def relations : List Kind := [equal, hash, less, lessEqual, greater, greaterEqual]

def isRelation (k : Kind) : Bool := k ∈ relations

/-- The kinds an expression can begin with. -/
def expressionStart : List Kind := [lparen, plus, minus, kwNot, identifier, integer]

def startsExpression (k : Kind) : Bool := k ∈ expressionStart

instance : ToString Kind := ⟨spelling⟩

end Kind

end ModSyntax
