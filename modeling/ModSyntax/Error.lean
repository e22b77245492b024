/-!
# Errors

Why a request for a module cannot be met as a whole.
-/

namespace ModSyntax

/-- Why the contents of a file cannot be had. -/
inductive FileFailure where
  | notFound
  | isDirectory
  | notUtf8
  /-- The system refuses to read it, for the reason it gives. -/
  | refused (reason : String)
deriving DecidableEq

def FileFailure.message : FileFailure → String
  | notFound => "No such file or directory (os error 2)"
  | isDirectory => "Is a directory (os error 21)"
  | notUtf8 => "stream did not contain valid UTF-8"
  | refused reason => reason

inductive Error where
  /-- The file is not one to read. -/
  | fileRead (detail : String)
  /-- The file cannot be read. -/
  | io (failure : FileFailure)
  /-- The text has diagnostics, so many of them. -/
  | syntaxErrors (count : Nat)
  /-- The tree holds a name that would not be read back as one identifier. -/
  | invalidIdentifier (name : String)
  /-- The result cannot be written. -/
  | output (detail : String)
deriving DecidableEq

namespace Error

def message : Error → String
  | fileRead detail => "File read error: " ++ detail
  | io failure => "I/O error: " ++ failure.message
  | syntaxErrors count => "Syntax errors: " ++ toString count ++ " diagnostic(s) reported"
  | invalidIdentifier name => "Invalid identifier '" ++ name ++ "' cannot be printed as source"
  | output detail => "Output error: " ++ detail

/-- The failure of a writer that gives no reason. -/
def formatting : Error := output "an error occurred when formatting an argument"

instance : ToString Error := ⟨message⟩

end Error

end ModSyntax
