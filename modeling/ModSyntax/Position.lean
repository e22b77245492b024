/-!
# Positions in a text

A position is a line and a column, both counted from one. Columns count characters. Positions are
ordered by line and then by column, which is the order of the text.
-/

namespace ModSyntax

/-- A place in a text. -/
structure Position where
  line : Nat
  column : Nat
deriving DecidableEq

namespace Position

/-- The position of the first character of a text. -/
def start : Position := ⟨1, 1⟩

/-- The position behind the character `c` when `c` stands at `p`. -/
def next (p : Position) (c : Char) : Position :=
  if c = '\n' then ⟨p.line + 1, 1⟩ else ⟨p.line, p.column + 1⟩

/-- The position behind `text` when `text` begins at `p`. -/
def after (p : Position) (text : List Char) : Position := text.foldl next p

@[simp] theorem after_nil (p : Position) : p.after [] = p := rfl

@[simp] theorem after_cons (p : Position) (c : Char) (text : List Char) :
    p.after (c :: text) = (p.next c).after text := rfl

@[simp] theorem after_append (p : Position) (a b : List Char) :
    p.after (a ++ b) = (p.after a).after b := List.foldl_append

/-! ## Order of the text -/

instance : LE Position where
  le p q := p.line < q.line ∨ p.line = q.line ∧ p.column ≤ q.column

instance : LT Position where
  lt p q := p.line < q.line ∨ p.line = q.line ∧ p.column < q.column

theorem le_def {p q : Position} :
    p ≤ q ↔ p.line < q.line ∨ p.line = q.line ∧ p.column ≤ q.column := Iff.rfl

theorem lt_def {p q : Position} :
    p < q ↔ p.line < q.line ∨ p.line = q.line ∧ p.column < q.column := Iff.rfl

instance (p q : Position) : Decidable (p ≤ q) := decidable_of_iff _ le_def.symm

instance (p q : Position) : Decidable (p < q) := decidable_of_iff _ lt_def.symm

/-- A character moves the position forward. -/
theorem lt_next (p : Position) (c : Char) : p < p.next c := by
  unfold next
  split <;> simp [lt_def]

/-- A list in the order of the text; members at one position keep their order. -/
def sortOn {α : Type} (place : α → Position) (xs : List α) : List α :=
  xs.mergeSort fun a b => place a ≤ place b

instance : ToString Position where
  toString p := toString p.line ++ ":" ++ toString p.column

end Position

end ModSyntax
