import ModSyntax.Diagnostic
import ModSyntax.Scan.Piece

/-!
# Scanning a text

A text is scanned into items in the order of the text: a token for every symbol, a diagnostic for
every character that begins no symbol and for a comment that is not closed, and at last the token
`Token.eof`. Blanks and comments give no item.
-/

namespace ModSyntax

/-- What scanning finds at one place: a token, or something it cannot read. -/
inductive Item where
  | token (t : Token)
  | fault (d : Diagnostic)
deriving DecidableEq

namespace Item

def position : Item → Position
  | token t => t.position
  | fault d => d.position

def token? : Item → Option Token
  | token t => some t
  | fault _ => none

def fault? : Item → Option Diagnostic
  | token _ => none
  | fault d => some d

end Item

/-- The item that a piece gives when it stands at `place`. -/
def Piece.item? (place : Position) : Piece → Option Item
  | blank _ => none
  | comment _ => none
  | unclosed _ => some (.fault ⟨place, .unterminated "comment" ["*)"]⟩)
  | symbol kind text => some (.token ⟨⟨kind, String.ofList text⟩, place⟩)
  | unknown c => some (.fault ⟨place, .unrecognized c⟩)

/-- The items of `text`, which begins at `place`, behind the items `done` in reverse. -/
def scanFrom (done : List Item) (place : Position) (text : List Char) : List Item :=
  match text with
  | [] => (.token (.eof place) :: done).reverse
  | c :: rest =>
    scanFrom (((Piece.first c rest).1.item? place).toList ++ done)
      (place.after (Piece.first c rest).1.text) (Piece.first c rest).2
termination_by text.length
decreasing_by exact Piece.length_first_lt c rest

/-- The items of a whole text. -/
def scan (source : String) : List Item := scanFrom [] .start source.toList

/-- The tokens and the diagnostics of a whole text, each in the order of the text. -/
def tokenize (source : String) : List Token × List Diagnostic :=
  ((scan source).filterMap Item.token?, (scan source).filterMap Item.fault?)

theorem scanFrom_eq (done : List Item) (place : Position) (text : List Char) :
    scanFrom done place text = done.reverse ++ scanFrom [] place text := by
  match text with
  | [] => simp [scanFrom]
  | c :: rest =>
    rw [scanFrom, scanFrom_eq _ _ (Piece.first c rest).2, scanFrom,
      scanFrom_eq (_ ++ []) _ (Piece.first c rest).2]
    simp
termination_by text.length
decreasing_by all_goals exact Piece.length_first_lt c rest

@[simp] theorem scanFrom_nil (place : Position) : scanFrom [] place [] = [.token (.eof place)] := by
  simp [scanFrom]

/-- Scanning goes piece by piece. -/
theorem scanFrom_cons (place : Position) (c : Char) (rest : List Char) :
    scanFrom [] place (c :: rest) = ((Piece.first c rest).1.item? place).toList ++
      scanFrom [] (place.after (Piece.first c rest).1.text) (Piece.first c rest).2 := by
  rw [scanFrom, scanFrom_eq]
  cases (Piece.first c rest).1.item? place <;> simp

end ModSyntax
