import ModSyntax.Token.Kind

/-!
# Identifiers

An identifier is a letter or underscore, then letters, digits and underscores, and is no reserved
word. Letters and digits are those of ASCII.
-/

namespace ModSyntax

/-- The characters a word begins with. -/
def isWordStart (c : Char) : Bool := c.isAlpha || c = '_'

/-- The characters a word goes on with. -/
def isWordPart (c : Char) : Bool := c.isAlphanum || c = '_'

/-- The name can be written in a text as one identifier. -/
def isIdentifier (name : String) : Bool :=
  match name.toList with
  | [] => false
  | c :: rest => isWordStart c && rest.all isWordPart && (Kind.keyword? name).isNone

end ModSyntax
