import ModSyntax.Position
import ModSyntax.Token.Kind

/-!
# Symbols and tokens

A symbol is a kind together with the characters it is written with. A token is a symbol at a place in
a text. What a text means depends on its symbols only; places serve the messages.
-/

namespace ModSyntax

/-- A kind and the characters it is written with. -/
structure Symbol where
  kind : Kind
  lexeme : String
deriving DecidableEq

namespace Symbol

/-- The word or mark `k`, in its fixed form. -/
def ofKind (k : Kind) : Symbol := ⟨k, k.spelling⟩

def identifier (name : String) : Symbol := ⟨.identifier, name⟩

/-- The integer written with the decimal digits of `n`. -/
def integer (n : Nat) : Symbol := ⟨.integer, toString n⟩

/-- How messages show the symbol: names and numbers as written, all else by its spelling. -/
def display (s : Symbol) : String :=
  match s.kind with
  | .identifier | .integer => s.lexeme
  | k => k.spelling

end Symbol

/-- A symbol at a place in a text. -/
structure Token extends Symbol where
  position : Position
deriving DecidableEq

/-- The token that ends every scanned text. -/
def Token.eof (position : Position) : Token := ⟨⟨.eof, ""⟩, position⟩

end ModSyntax
