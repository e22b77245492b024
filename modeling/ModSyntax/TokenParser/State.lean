import ModSyntax.Parse.Recovery

/-!
# Parsing tokens where they stand

A `Parser` reads symbols; what it reports is made into diagnostics afterwards, from the tokens. A
`TokenParser` does both in one pass over the tokens. It keeps the index of the next token, makes each
diagnostic when it finds something wrong, with the position of the token it is about, and remembers
at which token it made the last one: a mistake is not reported again by the constructs around it.

Its type promises nothing. It may look at positions, it may read behind the last token, and a reader
that calls itself may never take a token; a run that does one of the last two has no result.
-/

namespace ModSyntax

/-- A diagnostic, and the index of the token it was made at. -/
structure Reported where
  index : Nat
  diagnostic : Diagnostic
deriving DecidableEq

/-- The diagnostics made so far, in the order they were made, and where the last one was. -/
structure Log where
  reported : List Reported
  lastErrorAt : Option Nat

/-- Adds a diagnostic, unless the last one was made at the same token. -/
def Log.add (log : Log) (index : Nat) (d : Diagnostic) : Log :=
  if log.lastErrorAt = some index then log else ⟨log.reported ++ [⟨index, d⟩], some index⟩

/-- The tokens that are parsed, the index of the next one, and what was reported. -/
structure TokenParser.State where
  tokens : List Token
  pos : Nat
  log : Log

/-- A reader of tokens. It has no result if it reads behind the last token or makes no progress. -/
abbrev TokenParser : Type → Type := StateT TokenParser.State Option

/-- A reader of a construct, which has no value if the construct is malformed. That is then reported,
and the caller decides where to go on. -/
abbrev TokenRule : Type → Type := OptionT TokenParser

namespace TokenParser

open ModSyntax.Parser (declarationSync)

variable {α : Type}

/-! ## Readers that call themselves -/

/-- A reader that calls itself in `step`, for that many rounds. A call in the last one has no result,
and then nothing has that depends on it. -/
def rounds (step : TokenParser α → TokenParser α) : Nat → TokenParser α
  | 0 => fun _ => none
  | n + 1 => step (rounds step n)

/-- A reader that calls itself in `step`. There are as many rounds as there are tokens left, which is
enough if every call stands behind a token that was taken. -/
def fix (step : TokenParser α → TokenParser α) : TokenParser α :=
  fun s => rounds step (s.tokens.length - s.pos) s

/-- A reader of a construct that calls itself in `step`. -/
def fixRule (step : TokenRule α → TokenRule α) : TokenRule α :=
  .mk (fix fun m => (step (.mk m)).run)

/-! ## Reading tokens -/

/-- The next token. -/
def current : TokenParser Token := fun s => s.tokens[s.pos]?.map (·, s)

def kind : TokenParser Kind := return (← current).kind

/-- The index of the next token. -/
def index : TokenParser Nat := return (← get).pos

/-- The kind of the token `offset` behind the next one; behind the last token, the end of input. -/
def peekKind (offset : Nat) : TokenParser Kind :=
  return ((← get).tokens[(← index) + offset]?.map (·.kind)).getD .eof

/-- Takes the next token. An end of input is never passed. -/
def advance : TokenParser Token := do
  let t ← current
  if t.kind ≠ .eof then
    modify fun s => { s with pos := s.pos + 1 }
  return t

/-- Takes the next token if it is of kind `k`. -/
def eat (k : Kind) : TokenParser Bool := do
  if (← kind) = k then
    discard advance
    return true
  else
    return false

/-! ## Reporting -/

/-- Makes a diagnostic at the token with the index. -/
def reportAt (index : Nat) (d : Diagnostic) : TokenParser Unit :=
  modify fun s => { s with log := s.log.add index d }

/-- Reports that the next token is none of the expected kinds. -/
def reportUnexpected (rule : Construct) (expected : List Kind) : TokenParser Unit := do
  let t ← current
  let problem :=
    if t.kind = .eof then Problem.unterminated rule.name (expected.map Kind.spelling)
    else .unexpected t.display rule.name (expected.map Kind.spelling)
  reportAt (← index) ⟨t.position, problem⟩

/-- Takes the next token, which has to be of kind `k`. -/
def expect (k : Kind) (rule : Construct) : TokenRule Token := do
  if (← kind) = k then
    advance
  else
    reportUnexpected rule [k]
    failure

def identifier (rule : Construct) : TokenRule String := return (← expect .identifier rule).lexeme

/-! ## Recovery -/

/-- Passes over tokens until one of the kinds, or the end of input, is next. -/
def skipUntil (sync : List Kind) : TokenParser Unit :=
  fix fun more => do
    if (← kind) ∈ .eof :: sync then
      return
    else
      discard advance
      more

/-- Takes `k`. If it is missing, that is reported, and parsing goes on as if it stood there. -/
def require (k : Kind) (rule : Construct) : TokenParser Unit := do
  if ← eat k then
    return
  else
    reportUnexpected rule [k]

/-- Takes `k`. If it is missing, that is reported, and parsing goes on at one of the kinds `sync`,
behind `k` if that is what is found. -/
def terminate (k : Kind) (rule : Construct) (sync : List Kind) : TokenParser Unit := do
  if ← eat k then
    return
  else
    reportUnexpected rule [k]
    skipUntil sync
    discard <| eat k

/-- Leaves a broken declaration, and the semicolon behind it. -/
def recoverDeclaration : TokenParser Unit := do
  skipUntil declarationSync
  discard <| eat .semicolon

/-- Takes the semicolon behind an entry of a declaration part. If it is missing right before the next
entry or section, parsing goes on there. -/
def endEntry (rule : Construct) : TokenParser Unit := do
  if ← eat .semicolon then
    return
  else
    reportUnexpected rule [.semicolon]
    if (← kind) ∈ .identifier :: declarationSync then
      return
    else
      recoverDeclaration

end TokenParser

end ModSyntax
