import ModSyntax.Token.Basic
import ModSyntax.Token.Identifier
import ModSyntax.Tree.Name

/-!
# Layout of canonical text

Canonical text is written as a list of spans: symbols, and the blanks between them. The text of a
layout is what its spans spell. Only names that are identifiers can be laid out.
-/

namespace ModSyntax

/-- A symbol, or blanks. -/
inductive Span where
  | symbol (s : Symbol)
  | gap (blanks : String)
deriving DecidableEq

abbrev Layout := List Span

/-- A name that would not be read back as one identifier. -/
structure InvalidIdentifier where
  name : String
deriving DecidableEq

def Span.text : Span → String
  | symbol s => s.lexeme
  | gap blanks => blanks

namespace Layout

/-- The characters that the spans spell. -/
def text (l : Layout) : String := String.join (l.map Span.text)

/-- The word or mark `k`. -/
def word (k : Kind) : Span := .symbol (.ofKind k)

def space : Span := .gap " "

def newline : Span := .gap "\n"

/-- Two spaces for each level of nesting. -/
def indent (level : Nat) : Span := .gap ("".pushn ' ' (2 * level))

/-- An operator between two operands. -/
def spaced (k : Kind) : Layout := [space, word k, space]

def commas (ls : List Layout) : Layout := List.intercalate [word .comma, space] ls

/-- A line of its own at a level. -/
def line (level : Nat) (l : Layout) : Layout := indent level :: l ++ [newline]

/-- An integer; a negative one is its magnitude behind a minus. -/
def integer (n : Int) : Layout :=
  if n < 0 then [word .minus, .symbol (.integer n.natAbs)] else [.symbol (.integer n.natAbs)]

def identifier (n : String) : Except InvalidIdentifier Layout :=
  if isIdentifier n then .ok [.symbol (.identifier n)] else .error ⟨n⟩

def identifiers (ns : List String) : Except InvalidIdentifier Layout :=
  commas <$> ns.mapM identifier

/-- Segments with dots between them; there has to be a segment. -/
def qualifiedName (q : QualifiedName) : Except InvalidIdentifier Layout :=
  if q.segments = [] then .error ⟨""⟩
  else List.intercalate [word .period] <$> q.segments.mapM identifier

end Layout

end ModSyntax
