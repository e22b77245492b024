import ModSyntax.Error

/-!
# Source files

A module is kept in a file whose name ends in `.mod`, as UTF-8 text. What stands at a path is given
as an `Entry`, so that reading it is a function.
-/

namespace ModSyntax

/-- What a path leads to. -/
inductive Entry where
  | missing
  | directory
  | file (bytes : ByteArray)
  /-- Something that cannot be read, and the reason. -/
  | unreadable (reason : String)

/-- The last part of a path that names something; none if it leads to `.` or `..`. -/
def fileName? (path : String) : Option String :=
  match ((path.toList.splitOn '/').filter (fun part => part ≠ [] ∧ part ≠ ['.'])).getLast? with
  | none => none
  | some part => if part = ['.', '.'] then none else some (String.ofList part)

/-- What follows the last dot of a file name; a dot that begins the name does not count. -/
def extension? (path : String) : Option String :=
  match fileName? path with
  | none => none
  | some name =>
    match name.toList.reverse.span (· ≠ '.') with
    | (_, []) | (_, [_]) => none
    | (ending, _ :: _ :: _) => some (String.ofList ending.reverse)

/-- The extension of source files. -/
def sourceExtension : String := "mod"

/-- The text of the source file at `path`, where `entry` stands. The name is looked at first. -/
def readSource (path : String) (entry : Entry) : Except Error String :=
  if extension? path ≠ some sourceExtension then
    .error (.fileRead ("File must have a ." ++ sourceExtension ++ " extension"))
  else
    match entry with
    | .missing => .error (.io .notFound)
    | .directory => .error (.io .isDirectory)
    | .file bytes =>
      match String.fromUTF8? bytes with
      | some source => .ok source
      | none => .error (.io .notUtf8)
    | .unreadable reason => .error (.io (.refused reason))

end ModSyntax
