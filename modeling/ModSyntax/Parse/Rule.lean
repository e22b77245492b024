import ModSyntax.Parse.Parser

/-!
# Rules

A `Rule` is a parser that may find its construct malformed. Rules are put together like parsers;
the first one that fails ends the construct.
-/

namespace ModSyntax

/-- A parser of a construct. It has no value if the construct is malformed, which is then reported;
whoever attempts a rule decides where to go on. -/
structure Rule (α : Type) where
  attempt : Parser (Option α)

namespace Rule

open ModSyntax.Parser

variable {α β ω : Type}

instance : Monad Rule where
  pure a := ⟨pure (some a)⟩
  bind r f :=
    ⟨do
      match ← r.attempt with
      | none => return none
      | some a => (f a).attempt⟩

instance : MonadLift Parser Rule where
  monadLift p := ⟨some <$> p⟩

/-- The construct is malformed. -/
def fail : Rule α := ⟨pure none⟩

theorem ext {r s : Rule α} (h : ∀ c, r.attempt.run c = s.attempt.run c) : r = s := by
  cases r
  cases s
  congr
  exact Parser.ext h

@[simp] theorem attempt_pure (a : α) : (pure a : Rule α).attempt = pure (some a) := rfl

@[simp] theorem attempt_fail : (fail : Rule α).attempt = pure none := rfl

@[simp] theorem attempt_lift (p : Parser α) : (liftM p : Rule α).attempt = some <$> p := rfl

@[simp] theorem attempt_bind (r : Rule α) (f : α → Rule β) :
    (r >>= f).attempt = r.attempt >>= fun a? =>
      match a? with
      | none => pure none
      | some a => (f a).attempt := rfl

@[simp] theorem attempt_map (f : α → β) (r : Rule α) :
    (f <$> r).attempt = Option.map f <$> r.attempt := by
  refine Parser.ext fun c => ?_
  change (r >>= fun a => pure (f a)).attempt.run c = _
  simp only [attempt_bind, Parser.run_bind, Parser.run_map]
  cases (r.attempt.run c).value <;> simp

@[simp] theorem attempt_discard (r : Rule α) :
    (discard r).attempt = Option.map (fun _ => ()) <$> r.attempt := attempt_map _ r

instance : LawfulMonad Rule :=
  LawfulMonad.mk' Rule
    (fun r => ext fun c => by
      simp only [Functor.map, Parser.run_bind]
      cases h : (r.attempt.run c).value <;> simp [← h])
    (fun _ _ => ext fun c => by simp)
    (fun r f g => ext fun c => by
      simp only [attempt_bind, Parser.run_bind]
      cases (r.attempt.run c).value <;> simp)

/-- The rule that calls itself in `step`. -/
def fix (step : Rule α → Rule α) : Rule α := ⟨Parser.fix none fun p => (step ⟨p⟩).attempt⟩

/-- The characters of the next symbol, which has to be of kind `k`. -/
def expect (k : Kind) (rule : Construct) : Rule String := do
  if (← kind) = k then
    let text ← look Cursor.lexeme
    skip
    return text
  else
    unexpected rule [k]
    fail

def identifier (rule : Construct) : Rule String := expect .identifier rule

/-- What the rule reads behind a symbol of kind `k`, if such a symbol is next. -/
def after? (k : Kind) (r : Rule α) : Rule (Option α) := do
  if ← accept k then
    return some (← r)
  else
    return none

/-- Attempts the rule. If it fails, the symbols before the next one of the kinds are passed over. -/
def orSkipUntil (r : Rule α) (kinds : List Kind) : Parser (Option α) := do
  match ← r.attempt with
  | some a => return some a
  | none =>
    skipUntil kinds
    return none

/-- One round of a chain: an operator and an item, if the operator is there; `more` reads the rounds
behind it. -/
def chainStep (operator : Parser (Option ω)) (item : Rule α) (more : Rule (List (ω × α))) :
    Rule (List (ω × α)) := do
  match ← operator with
  | none => return []
  | some op =>
    let a ← item
    return (op, a) :: (← more)

/-- Items as long as an operator stands before them, each with its operator. -/
def chain (operator : Parser (Option ω)) (item : Rule α) : Rule (List (ω × α)) :=
  fix (chainStep operator item)

/-- One or more items with a comma between them. -/
def commaList (item : Rule α) : Rule (List α) := do
  let a ← item
  let more ← chain (operator fun k => if k = .comma then some () else none) item
  return a :: more.map Prod.snd

/-- One or more identifiers with a comma between them. -/
def identifierList (rule : Construct) : Rule (List String) := commaList (identifier rule)

end Rule

end ModSyntax
