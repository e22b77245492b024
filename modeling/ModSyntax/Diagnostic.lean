import ModSyntax.Position

/-!
# Diagnostics

What can be wrong with a text, where, and in which words it is said. Scanner and parser report in
the same type, so that their reports can be put into one list in the order of the text.
-/

namespace ModSyntax

/-- What is wrong at one place of a text. -/
inductive Problem where
  /-- A character that begins no symbol. -/
  | unrecognized (char : Char)
  /-- A symbol that `rule` cannot continue with. -/
  | unexpected (found rule : String) (expected : List String)
  /-- The text ends inside `construct`. -/
  | unterminated (construct : String) (expected : List String)
  /-- An integer literal beyond the range of literals. -/
  | outOfRange (lexeme : String)
deriving DecidableEq

/-- A problem at its place. -/
structure Diagnostic where
  position : Position
  problem : Problem
deriving DecidableEq

private def quoted (text : String) : String := "'" ++ text ++ "'"

/-- The alternatives of a message: none, the only one, or a list. -/
def describeExpected : List String → String
  | [] => "nothing"
  | [only] => quoted only
  | many => "one of " ++ ", ".intercalate (many.map quoted)

def Problem.message : Problem → String
  | .unrecognized char => "unrecognized character " ++ quoted (String.singleton char)
  | .unexpected found rule expected =>
    "unexpected " ++ quoted found ++ " in " ++ rule ++ ", expected " ++ describeExpected expected
  | .unterminated construct expected =>
    "unterminated " ++ construct ++ ", expected " ++ describeExpected expected ++
      " before end of input"
  | .outOfRange lexeme => "integer literal " ++ quoted lexeme ++ " is out of range"

namespace Diagnostic

/-- The line a reader sees. -/
def text (d : Diagnostic) : String := toString d.position ++ ": " ++ d.problem.message

instance : ToString Diagnostic := ⟨text⟩

/-- Diagnostics in the order of the text; those at one position keep the order of reporting. -/
def inSourceOrder (ds : List Diagnostic) : List Diagnostic := Position.sortOn position ds

end Diagnostic

end ModSyntax
