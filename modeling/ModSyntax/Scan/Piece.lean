import ModSyntax.Scan.Comment
import ModSyntax.Token.Basic
import ModSyntax.Token.Identifier

/-!
# Pieces of a text

Every text is cut into pieces from left to right: blanks, comments, symbols, and characters that
begin no symbol. `Piece.first` cuts the next piece off; nothing of the text is lost
(`text_first`), and no piece is empty (`text_first_ne_nil`).
-/

namespace ModSyntax

/-- The blanks: space, tab, line feed, carriage return, vertical tab and form feed. -/
def isBlank (c : Char) : Bool :=
  c = ' ' || c = '\t' || c = '\n' || c = '\r' || c = '\x0B' || c = '\x0C'

/-- The mark that one character makes. -/
def markOf? : Char → Option Kind
  | ';' => some .semicolon
  | '.' => some .period
  | '=' => some .equal
  | ':' => some .colon
  | '(' => some .lparen
  | ')' => some .rparen
  | ',' => some .comma
  | '#' => some .hash
  | '<' => some .less
  | '>' => some .greater
  | '+' => some .plus
  | '-' => some .minus
  | '*' => some .star
  | '/' => some .slash
  | _ => none

/-- The mark that two characters make. -/
def doubleMark? : Char → Char → Option Kind
  | ':', '=' => some .becomes
  | '<', '=' => some .lessEqual
  | '>', '=' => some .greaterEqual
  | _, _ => none

/-- A piece of a text. -/
inductive Piece where
  | blank (c : Char)
  /-- A comment with its brackets. -/
  | comment (text : List Char)
  /-- A comment that the text ends in. -/
  | unclosed (text : List Char)
  | symbol (kind : Kind) (text : List Char)
  /-- A character that begins no symbol. -/
  | unknown (c : Char)
deriving DecidableEq

namespace Piece

/-- The characters of the piece. -/
def text : Piece → List Char
  | blank c => [c]
  | comment text => text
  | unclosed text => text
  | symbol _ text => text
  | unknown c => [c]

@[simp] theorem text_blank (c : Char) : (blank c).text = [c] := rfl

@[simp] theorem text_comment (t : List Char) : (comment t).text = t := rfl

@[simp] theorem text_unclosed (t : List Char) : (unclosed t).text = t := rfl

@[simp] theorem text_symbol (k : Kind) (t : List Char) : (symbol k t).text = t := rfl

@[simp] theorem text_unknown (c : Char) : (unknown c).text = [c] := rfl

/-- A run of word characters: a reserved word, or else an identifier. -/
def ofWord (word : List Char) : Piece :=
  symbol ((Kind.keyword? (String.ofList word)).getD .identifier) word

/-- The comment whose opening stands before `body`, and the text behind it. -/
def ofComment (body : List Char) : Piece × List Char :=
  match afterComment 0 body with
  | some rest => (comment ('(' :: '*' :: body.take (body.length - rest.length)), rest)
  | none => (unclosed ('(' :: '*' :: body), [])

/-- The character `c` by itself: a mark, or unknown. -/
def ofChar (c : Char) : Piece :=
  match markOf? c with
  | some k => symbol k [c]
  | none => unknown c

/-- The mark `double` if a `=` is next, which belongs to it, and else the mark `single`. -/
def orEqual (single double : Piece) (rest : List Char) : Piece × List Char :=
  match rest with
  | '=' :: behind => (double, behind)
  | rest => (single, rest)

/-- The mark or unknown character at the beginning of `c :: rest`. The marks that a `=` can be a part
of are written out; that they are what is cut off says `text_ofMark`. -/
def ofMark (c : Char) (rest : List Char) : Piece × List Char :=
  match c with
  | ':' => orEqual (symbol .colon [':']) (symbol .becomes [':', '=']) rest
  | '<' => orEqual (symbol .less ['<']) (symbol .lessEqual ['<', '=']) rest
  | '>' => orEqual (symbol .greater ['>']) (symbol .greaterEqual ['>', '=']) rest
  | c => (ofChar c, rest)

/-- The first piece of `c :: rest`, and the text behind it. Words and numbers are taken as long as
they last, and two characters that make a mark are not parted. -/
def first (c : Char) (rest : List Char) : Piece × List Char :=
  if isBlank c then (blank c, rest)
  else if isWordStart c then
    (ofWord (c :: rest.takeWhile isWordPart), rest.dropWhile isWordPart)
  else if c.isDigit then
    (symbol .integer (c :: rest.takeWhile Char.isDigit), rest.dropWhile Char.isDigit)
  else
    match c, rest with
    | '(', '*' :: body => ofComment body
    | c, rest => ofMark c rest

@[simp] theorem text_ofWord (word : List Char) : (ofWord word).text = word := rfl

@[simp] theorem text_ofChar (c : Char) : (ofChar c).text = [c] := by
  unfold ofChar
  split <;> rfl

theorem text_ofComment (body : List Char) :
    (ofComment body).1.text ++ (ofComment body).2 = '(' :: '*' :: body := by
  unfold ofComment
  split
  · next rest h =>
    obtain ⟨before, rfl⟩ := afterComment_suffix h
    simp
  · simp

theorem ofMark_double {c d : Char} {k : Kind} (h : doubleMark? c d = some k) (behind : List Char) :
    ofMark c (d :: behind) = (symbol k [c, d], behind) := by
  fun_cases doubleMark? c d with
  | case4 => simp_all [doubleMark?]
  | _ =>
    obtain rfl := Option.some.inj h
    rfl

theorem orEqual_single {c : Char} {rest : List Char} {double : Piece}
    (hc : ∀ d ∈ rest.head?, doubleMark? c d = none) (hdouble : (doubleMark? c '=').isSome) :
    orEqual (ofChar c) double rest = (ofChar c, rest) := by
  unfold orEqual
  split
  · simp [hc '=' (by simp)] at hdouble
  · rfl

theorem ofMark_single {c : Char} {rest : List Char}
    (h : ∀ d ∈ rest.head?, doubleMark? c d = none) : ofMark c rest = (ofChar c, rest) := by
  fun_cases ofMark c rest with
  | case4 => rfl
  | _ => exact orEqual_single h rfl

/-- At a mark of two characters both are cut off, and else one. -/
theorem ofMark_cases (c : Char) (rest : List Char) :
    (∃ (d : Char) (behind : List Char) (k : Kind), rest = d :: behind ∧ doubleMark? c d = some k ∧
      ofMark c rest = (symbol k [c, d], behind)) ∨
    (∀ d ∈ rest.head?, doubleMark? c d = none) ∧ ofMark c rest = (ofChar c, rest) := by
  cases rest with
  | nil => exact .inr ⟨nofun, ofMark_single nofun⟩
  | cons d behind =>
    cases hd : doubleMark? c d with
    | some k => exact .inl ⟨d, behind, k, rfl, hd, ofMark_double hd behind⟩
    | none =>
      have hnone : ∀ e ∈ (d :: behind).head?, doubleMark? c e = none := by simp [hd]
      exact .inr ⟨hnone, ofMark_single hnone⟩

theorem text_ofMark (c : Char) (rest : List Char) :
    (ofMark c rest).1.text ++ (ofMark c rest).2 = c :: rest := by
  rcases ofMark_cases c rest with ⟨d, behind, k, rfl, -, h⟩ | ⟨-, h⟩ <;> simp [h]

/-- Cutting a piece off loses nothing of the text, and a symbol is the text that is cut off for
it. -/
theorem text_first (c : Char) (rest : List Char) :
    (first c rest).1.text ++ (first c rest).2 = c :: rest := by
  fun_cases first c rest with
  | case1 => simp
  | case2 => simp
  | case3 => simp
  | case4 body => exact text_ofComment body
  | case5 => exact text_ofMark c rest

/-- A piece that is cut off holds at least one character. -/
theorem text_first_ne_nil (c : Char) (rest : List Char) : (first c rest).1.text ≠ [] := by
  fun_cases first c rest with
  | case1 => simp
  | case2 => simp
  | case3 => simp
  | case4 body =>
    unfold ofComment
    split <;> simp
  | case5 => rcases ofMark_cases c rest with ⟨d, behind, k, rfl, -, h⟩ | ⟨-, h⟩ <;> simp [h]

/-- What is left behind the first piece of a text is shorter than the text. -/
theorem length_first_lt (c : Char) (rest : List Char) :
    (first c rest).2.length < (c :: rest).length := by
  have whole := congrArg List.length (text_first c rest)
  have := List.length_pos_iff.2 (text_first_ne_nil c rest)
  rw [List.length_append] at whole
  omega

end Piece

end ModSyntax
