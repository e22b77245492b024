import ModSyntax.CommandLine

/-!
# The program

Reads the arguments and the file, and prints what `CommandLine.run` gives.
-/

open ModSyntax

namespace ModSyntax.CommandLine

def usage : String := "usage: [--tokens] [--show-ast] [-p] [-v] [-t] PATH"

/-- What stands at a path of the file system. -/
def entryAt (path : String) : IO Entry := do
  try
    return .file (← IO.FS.readBinFile path)
  catch
    | .noFileOrDirectory .. => return .missing
    | .inappropriateType .. => return .directory
    | .permissionDenied .. => return .unreadable "Permission denied (os error 13)"
    | e => throw e

/-- Computes a value, and tells how many milliseconds that takes. -/
def timed {α : Type} (f : Unit → α) : IO Nat := do
  let before ← IO.monoMsNow
  discard <| IO.lazyPure f
  return (← IO.monoMsNow) - before

/-- The times of scanning and parsing a text. -/
def measure (source : String) : IO Times := do
  let scanning ← timed fun _ => tokenize source
  let parsing ← timed fun _ => parseSource source
  return ⟨scanning, parsing, scanning + parsing⟩

end ModSyntax.CommandLine

open CommandLine in
def main (args : List String) : IO UInt32 := do
  match Options.ofArgs? args with
  | none =>
    IO.eprintln usage
    return 2
  | some o =>
    let entry ← entryAt o.path
    let times ←
      match sourceOf o.path entry with
      | .ok source => measure source
      | .error _ => pure ⟨0, 0, 0⟩
    let r := run o entry times
    IO.print r.stdout
    IO.eprint r.stderr
    return r.exit.toUInt32
