import ModSyntax.Parse.Module
import ModSyntax.Print.Dump
import ModSyntax.Print.Module
import ModSyntax.SourceFile

/-!
# The command line

One source file is checked. Flags ask for more to be shown: the tokens, the tree, the canonical text,
the steps and their times. What is wrong with the file goes to the error output, and decides on the
exit code, whatever the flags are.
-/

namespace ModSyntax

/-- What can be asked for besides the check. -/
inductive Flag where
  | tokens | showAst | pretty | verbose | timing
deriving DecidableEq

namespace Flag

/-- The flag behind two dashes. -/
def ofLong? : String → Option Flag
  | "tokens" => some tokens
  | "show-ast" => some showAst
  | "pretty" => some pretty
  | "verbose" => some verbose
  | "timing" => some timing
  | _ => none

/-- The flag behind one dash, where several may stand together. -/
def ofShort? : Char → Option Flag
  | 'p' => some pretty
  | 'v' => some verbose
  | 't' => some timing
  | _ => none

end Flag

/-- A file to check, and the flags. -/
structure Options where
  path : String
  flags : List Flag

namespace Options

def has (o : Options) (f : Flag) : Bool := f ∈ o.flags

/-- The flags of one argument; none if it is not made of flags. -/
def flagsOf? : List Char → Option (List Flag)
  | '-' :: '-' :: name => (Flag.ofLong? (String.ofList name)).map ([·])
  | '-' :: letters => letters.mapM Flag.ofShort?
  | _ => none

/-- The flags and the other arguments. Everything behind `--` is no flag, and neither is a dash by
itself. -/
def collect : List String → Option (List Flag × List String)
  | [] => some ([], [])
  | arg :: rest =>
    if arg = "--" then some ([], rest)
    else if arg = "-" ∨ arg.toList.head? ≠ some '-' then do
      let (flags, paths) ← collect rest
      return (flags, arg :: paths)
    else do
      let here ← flagsOf? arg.toList
      let (flags, paths) ← collect rest
      return (here ++ flags, paths)

/-- The options that the arguments ask for: one path, and no flag twice. -/
def ofArgs? (args : List String) : Option Options :=
  match collect args with
  | some (flags, [path]) => if path ≠ "" ∧ flags.Nodup then some ⟨path, flags⟩ else none
  | _ => none

end Options

/-- Milliseconds spent on scanning, on parsing, and in all. -/
structure Times where
  scanning : Nat
  parsing : Nat
  total : Nat

/-- What the program leaves behind. -/
structure Run where
  exit : Nat
  stdout : String
  stderr : String

/-- What is known of a source text. -/
structure Analysis where
  tokens : List Token
  unit : Module
  diagnostics : List Diagnostic

def Analysis.ofSource (source : String) : Analysis :=
  let (unit, diagnostics) := parseSource source
  ⟨(tokenize source).1, unit, diagnostics⟩

namespace CommandLine

/-- `text` with blanks before it, to fill the width. -/
def alignRight (width : Nat) (text : String) : String :=
  "".pushn ' ' (width - text.length) ++ text

/-- `text` with blanks behind it, to fill the width. -/
def alignLeft (width : Nat) (text : String) : String := text.pushn ' ' (width - text.length)

/-- Seconds with three decimals. -/
def seconds (milliseconds : Nat) : String :=
  let thousandths := toString (milliseconds % 1000)
  toString (milliseconds / 1000) ++ "." ++ "".pushn '0' (3 - thousandths.length) ++ thousandths

def onLines (lines : List String) : String := String.join (lines.map (· ++ "\n"))

def tokenLine (t : Token) : String :=
  "  " ++ alignRight 4 (toString t.position.line) ++ ":" ++
    alignLeft 4 (toString t.position.column) ++ " " ++ alignLeft 16 t.kind.name ++ " " ++
    t.toSymbol.display

def statistics (a : Analysis) (t : Times) : List String :=
  ["", "Parse Statistics:",
   "  Lexical Analysis    " ++ alignRight 8 (seconds t.scanning) ++ "s",
   "  Parsing             " ++ alignRight 8 (seconds t.parsing) ++ "s",
   "  Total Time          " ++ alignRight 8 (seconds t.total) ++ "s",
   "  Tokens:             " ++ toString a.tokens.length,
   "  Declarations:       " ++ toString a.unit.block.declarations.length,
   "  Diagnostics:        " ++ toString a.diagnostics.length]

/-- The lines that are shown of a text before the verdict on it. -/
def shown (o : Options) (source : String) (a : Analysis) (t : Times) : List String :=
  when .verbose
    ["Read " ++ toString source.utf8ByteSize ++ " bytes from input file",
     "Lexical analysis completed in " ++ seconds t.scanning ++ "s",
     "  Generated " ++ toString a.tokens.length ++ " tokens"] ++
  when .tokens (["", "Tokens:"] ++ a.tokens.map tokenLine) ++
  when .verbose
    ["Parsing completed in " ++ seconds t.parsing ++ "s",
     "  " ++ toString a.unit.block.declarations.length ++ " top-level declarations, " ++
       toString a.diagnostics.length ++ " diagnostics"] ++
  when .showAst ["", "Abstract Syntax Tree:", toString a.unit.dump]
where
  when (f : Flag) (lines : List String) : List String := if o.has f then lines else []

/-- The end of a run that failed. -/
def failed (stdout stderr : String) (e : Error) : Run :=
  ⟨1, stdout, stderr ++ onLines ["Error: " ++ e.message]⟩

/-- The run on a text that was read. The canonical text is shown of a well-formed module only. -/
def judge (o : Options) (source : String) (a : Analysis) (t : Times) : Run :=
  let before := onLines (shown o source a t)
  let stats := if o.has .timing then onLines (statistics a t) else ""
  if a.diagnostics ≠ [] then
    failed (before ++ stats) (onLines (a.diagnostics.map fun d => o.path ++ ": " ++ d.text))
      (.syntaxErrors a.diagnostics.length)
  else
    match if o.has .pretty then a.unit.print else .ok "" with
    | .error e => failed before "" (.invalidIdentifier e.name)
    | .ok text =>
      let verdict := if o.has .verbose then onLines ["No syntax errors in " ++ o.path] else ""
      ⟨0, before ++ text ++ stats ++ verdict, ""⟩

/-- The text of the file to check. -/
def sourceOf (path : String) (entry : Entry) : Except Error String :=
  match entry with
  | .missing => .error (.fileRead ("Input file does not exist: " ++ path))
  | entry => readSource path entry

/-- The run of the program on what stands at the path, with the times it takes. -/
def run (o : Options) (entry : Entry) (t : Times) : Run :=
  let opening := if o.has .verbose then onLines ["Parsing module: " ++ o.path] else ""
  match sourceOf o.path entry with
  | .error e => failed opening "" e
  | .ok source =>
    let rest := judge o source (.ofSource source) t
    { rest with stdout := opening ++ rest.stdout }

end CommandLine

end ModSyntax
