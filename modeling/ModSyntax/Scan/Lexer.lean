import ModSyntax.Scan.Item

/-!
# Scanning on demand

A `Lexer` holds a text and the place up to which it has been scanned, and gives one item at a time.
It can be set back to the beginning at any moment. Once it has given the end of the text it gives
nothing more.
-/

namespace ModSyntax

/-- A text that is being scanned. -/
structure Lexer where
  source : String
  /-- The text not yet scanned. -/
  rest : List Char
  /-- The place of `rest`. -/
  position : Position
  /-- The end of the text has been given. -/
  finished : Bool

namespace Lexer

def ofString (source : String) : Lexer := ⟨source, source.toList, .start, false⟩

/-- Back to the beginning of the text. -/
def reset (l : Lexer) : Lexer := ofString l.source

/-- The next item, and the lexer behind it. -/
def next? (l : Lexer) : Option (Item × Lexer) :=
  if l.finished then none
  else
    match _h : l.rest with
    | [] => some (.token (.eof l.position), { l with finished := true })
    | c :: rest =>
      let cut := Piece.first c rest
      let behind := { l with rest := cut.2, position := l.position.after cut.1.text }
      match cut.1.item? l.position with
      | some item => some (item, behind)
      | none => behind.next?
termination_by l.rest.length
decreasing_by exact _h ▸ Piece.length_first_lt c rest

/-- A bound for the number of items that are left. -/
def left (l : Lexer) : Nat := if l.finished then 0 else l.rest.length + 1

theorem left_lt_of_next? {l l' : Lexer} {item : Item} (h : l.next? = some (item, l')) :
    l'.left < l.left := by
  fun_induction next? l with
  | case1 => simp at h
  | case2 l hf =>
    obtain ⟨-, rfl⟩ := Prod.mk.inj (Option.some.inj h)
    simp [left, hf]
  | case3 l hf c rest hr cut behind i hi =>
    obtain ⟨-, rfl⟩ := Prod.mk.inj (Option.some.inj h)
    simpa [left, hf, hr, behind] using Piece.length_first_lt c rest
  | case4 l hf c rest hr cut behind hi ih =>
    have := ih h
    have : behind.left < l.left := by
      simpa [left, hf, hr, behind] using Piece.length_first_lt c rest
    omega

/-- All items that are left. -/
def items (l : Lexer) : List Item :=
  match _h : l.next? with
  | none => []
  | some (item, behind) => item :: behind.items
termination_by l.left
decreasing_by exact left_lt_of_next? _h

/-- At most `n` items, and the lexer behind them. -/
def take : Nat → Lexer → List Item × Lexer
  | 0, l => ([], l)
  | n + 1, l =>
    match l.next? with
    | none => ([], l)
    | some (item, behind) =>
      let more := behind.take n
      (item :: more.1, more.2)

/-- The item behind `n` others, and the lexer behind it. -/
def nth? : Nat → Lexer → Option Item × Lexer
  | 0, l => (l.next?.map Prod.fst, (l.next?.map Prod.snd).getD l)
  | n + 1, l =>
    match l.next? with
    | none => (none, l)
    | some (_, behind) => behind.nth? n

/-- The lexer when nothing is left. -/
def exhaust (l : Lexer) : Lexer := (l.take l.left).2

end Lexer

end ModSyntax
