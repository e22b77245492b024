import Mathlib.Data.List.Chain
import ModSyntax.Proofs.Scan.Comment
import ModSyntax.Proofs.Scan.Layout

/-!
# Symbols with separators between them

Symbols are written down one behind the other, with separators between them: blanks, whole comments
and characters that begin no symbol. Scanning gives the symbols back, and one fault for each of
those characters (`tokenize_writeDown`). A separator may be left out where the symbols on both sides
of it do not join (`Kind.joins`).

A text that is made of pieces is cut into the same pieces if each of them is cut off as it is in
front of those behind it (`Piece.Cuts`). Separators are cut off in front of any text, and symbols in
front of what does not go on with them.
-/

namespace ModSyntax

/-! ## Texts made of pieces -/

namespace Piece

/-- In front of the text `next`, the piece is cut off as it is. -/
def CutsOff (p : Piece) (next : List Char) : Prop :=
  ∃ c rest, p.text ++ next = c :: rest ∧ first c rest = (p, next)

/-- The characters of pieces one behind the other. -/
def textOf (ps : List Piece) : List Char := ps.flatMap text

@[simp] theorem textOf_nil : textOf [] = [] := rfl

@[simp] theorem textOf_cons (p : Piece) (ps : List Piece) :
    textOf (p :: ps) = p.text ++ textOf ps := rfl

@[simp] theorem textOf_append (ps qs : List Piece) : textOf (ps ++ qs) = textOf ps ++ textOf qs :=
  List.flatMap_append

/-- In front of the text `next`, the text of the pieces is cut into these pieces. -/
def Cuts : List Piece → List Char → Prop
  | [], _ => True
  | p :: ps, next => p.CutsOff (textOf ps ++ next) ∧ Cuts ps next

theorem cuts_append {ps qs : List Piece} {next : List Char} :
    Cuts (ps ++ qs) next ↔ Cuts ps (textOf qs ++ next) ∧ Cuts qs next := by
  induction ps with
  | nil => simp [Cuts]
  | cons p ps ih => simp [Cuts, ih, and_assoc]

/-- The items of pieces one behind the other, the first of which stands at `place`. -/
def items (place : Position) : List Piece → List Item
  | [] => []
  | p :: ps => (p.item? place).toList ++ items (place.after p.text) ps

/-- A text that is cut into pieces gives their items. -/
theorem Cuts.scanFrom_eq {ps : List Piece} {next : List Char} (h : Cuts ps next)
    (place : Position) :
    scanFrom [] place (textOf ps ++ next) =
      items place ps ++ scanFrom [] (place.after (textOf ps)) next := by
  induction ps generalizing place with
  | nil => rfl
  | cons p ps ih =>
    obtain ⟨⟨c, rest, htext, hfirst⟩, hps⟩ := h
    rw [textOf_cons, List.append_assoc, htext, scanFrom_cons, hfirst, ih hps, items,
      Position.after_append, List.append_assoc]

/-- The symbol that the piece is. -/
def symbol? : Piece → Option Symbol
  | symbol k text => some ⟨k, String.ofList text⟩
  | _ => none

/-- What is wrong with the piece. -/
def problem? : Piece → Option Problem
  | unclosed _ => some (.unterminated "comment" ["*)"])
  | unknown c => some (.unrecognized c)
  | _ => none

theorem symbols_items (place : Position) (ps : List Piece) :
    ((items place ps).filterMap Item.token?).map Token.toSymbol = ps.filterMap symbol? := by
  induction ps generalizing place with
  | nil => rfl
  | cons p ps ih =>
    cases p <;> simp [items, item?, symbol?, Item.token?, List.filterMap_cons, ih]

theorem problems_items (place : Position) (ps : List Piece) :
    ((items place ps).filterMap Item.fault?).map Diagnostic.problem = ps.filterMap problem? := by
  induction ps generalizing place with
  | nil => rfl
  | cons p ps ih =>
    cases p <;> simp [items, item?, problem?, Item.fault?, List.filterMap_cons, ih]

/-- A text is scanned as the items of its pieces. -/
theorem Cuts.tokenize_items {ps : List Piece} (h : Cuts ps []) :
    tokenize (String.ofList (textOf ps)) =
      ((items .start ps).filterMap Item.token? ++ [Token.eof (Position.start.after (textOf ps))],
        (items .start ps).filterMap Item.fault?) := by
  have hscan : scan (String.ofList (textOf ps)) =
      items .start ps ++ [Item.token (.eof (Position.start.after (textOf ps)))] := by
    simpa [scan] using h.scanFrom_eq .start
  simp [tokenize, hscan, List.filterMap_cons, Item.token?, Item.fault?]

/-- The tokens of a text are the symbols among its pieces and the end, and its faults are what is
wrong with them. -/
theorem Cuts.tokenize_eq {ps : List Piece} (h : Cuts ps []) :
    ∃ (tokens : List Token) (stop : Position), tokens.map Token.toSymbol = ps.filterMap symbol? ∧
      (tokenize (String.ofList (textOf ps))).1 = tokens ++ [Token.eof stop] ∧
      (tokenize (String.ofList (textOf ps))).2.map Diagnostic.problem = ps.filterMap problem? := by
  rw [h.tokenize_items]
  exact ⟨_, _, symbols_items .start ps, rfl, problems_items .start ps⟩

end Piece

/-! ## Separators -/

/-- The character begins no symbol, and is no blank. -/
def isStray (c : Char) : Bool := !isBlank c && !isWordStart c && !c.isDigit && (markOf? c).isNone

theorem isStray_iff {c : Char} : isStray c = true ↔
    isBlank c = false ∧ isWordStart c = false ∧ c.isDigit = false ∧ markOf? c = none := by
  simp [isStray, and_assoc]

namespace Piece

/-- The piece parts symbols from each other: it is a blank, a whole comment, or a character that
begins no symbol. -/
inductive Separates : Piece → Prop where
  | blank {c : Char} : isBlank c = true → Separates (.blank c)
  | comment {body : List Char} : Closes body → Separates (.comment ('(' :: '*' :: body))
  | unknown {c : Char} : isStray c = true → Separates (.unknown c)

theorem first_stray {c : Char} (h : isStray c = true) (next : List Char) :
    first c next = (unknown c, next) := by
  obtain ⟨hblank, hstart, hdigit, hmark⟩ := isStray_iff.1 h
  have hparen : c ≠ '(' := by
    rintro rfl
    cases hmark
  have hdouble (d : Char) : doubleMark? c d = none := by
    fun_cases doubleMark? c d with
    | case4 => rfl
    | _ => cases hmark
  rw [first_mark hblank hstart hdigit (absurd · hparen), ofMark_single fun d _ => hdouble d]
  simp [ofChar, hmark]

/-- What parts symbols is cut off in front of any text. -/
theorem Separates.cutsOff {p : Piece} (h : p.Separates) (next : List Char) : p.CutsOff next := by
  cases h with
  | @blank c hc => exact ⟨c, next, rfl, by unfold first; rw [if_pos hc]⟩
  | @comment body hbody =>
    refine ⟨'(', '*' :: (body ++ next), rfl, ?_⟩
    change ofComment (body ++ next) = _
    simp [ofComment, hbody.afterComment_eq next]
  | @unknown c hc => exact ⟨c, next, rfl, first_stray hc next⟩

/-- What parts symbols goes on with none. -/
theorem Separates.quiet {p : Piece} (h : p.Separates) (next : List Char) :
    Layout.Quiet (p.text ++ next) := by
  cases h with
  | @blank c hc =>
    refine Layout.quiet_cons ⟨?_, ?_, ?_⟩ next
    · exact Bool.eq_false_iff.2 fun hpart => Bool.eq_false_iff.1 (isBlank_eq_false hpart) hc
    · rintro rfl
      cases hc
    · rintro rfl
      cases hc
  | comment => exact Layout.quiet_cons (by decide) _
  | @unknown c hc =>
    obtain ⟨-, hstart, hdigit, hmark⟩ := isStray_iff.1 hc
    refine Layout.quiet_cons ⟨?_, ?_, ?_⟩ next
    · simp_all [isWordStart, isWordPart, Char.isAlphanum]
    · rintro rfl
      cases hmark
    · rintro rfl
      cases hmark

theorem cuts_of_separates {ps : List Piece} (h : ∀ p ∈ ps, p.Separates) (next : List Char) :
    Cuts ps next := by
  induction ps with
  | nil => trivial
  | cons p ps ih =>
    obtain ⟨hp, hps⟩ := List.forall_mem_cons.1 h
    exact ⟨hp.cutsOff _, ih hps⟩

end Piece

/-- What stands between two symbols: blanks, whole comments, and characters that begin no symbol. -/
structure Separator where
  pieces : List Piece
  separates : ∀ p ∈ pieces, p.Separates

namespace Separator

def text (s : Separator) : List Char := Piece.textOf s.pieces

/-- The characters of the separator, outside its comments, that begin no symbol. -/
def strays (s : Separator) : List Char :=
  s.pieces.filterMap fun
    | .unknown c => some c
    | _ => none

theorem symbols_pieces (s : Separator) : s.pieces.filterMap Piece.symbol? = [] := by
  refine List.filterMap_eq_nil_iff.2 fun p hp => ?_
  cases s.separates p hp <;> rfl

theorem problems_pieces (s : Separator) :
    s.pieces.filterMap Piece.problem? = s.strays.map .unrecognized := by
  rw [strays, List.map_filterMap]
  refine List.filterMap_congr fun p hp => ?_
  cases s.separates p hp <;> rfl

/-- Where there is a separator, it ends the symbol before it. -/
theorem ends {s : Separator} (h : s.text ≠ []) (symbol : Symbol) (next : List Char) :
    symbol.Ends (s.text ++ next) := by
  obtain ⟨pieces, separates⟩ := s
  cases pieces with
  | nil => exact absurd rfl h
  | cons p ps =>
    have hquiet := (separates p List.mem_cons_self).quiet (Piece.textOf ps ++ next)
    rw [text, Piece.textOf_cons, List.append_assoc]
    exact hquiet.ends symbol

end Separator

/-! ## Symbols side by side -/

namespace Kind

/-- The kinds of words. -/
def isWord (k : Kind) : Bool := k = identifier || k.isKeyword

/-- Written side by side, a symbol of kind `k` and one of kind `next` are not read as these two:
words and numbers run together, and some marks make another mark or open a comment. -/
def joins (k next : Kind) : Bool :=
  k.isWord && (next.isWord || next = integer) ||
  k = integer && next = integer ||
  k ∈ [colon, less, greater] && next = equal ||
  k = lparen && next = star

end Kind

namespace Symbol

open Piece

/-- Whether a symbol goes on with a character depends on what the character can be part of. -/
theorem fuses_cases {s : Symbol} {c : Char} (h : s.Fuses c = true) :
    s.kind.isWord = true ∧ isWordPart c = true ∨ s.kind = .integer ∧ c.isDigit = true ∨
      s.kind ∈ [.colon, .less, .greater] ∧ c = '=' ∨ s.kind = .lparen ∧ c = '*' := by
  unfold Fuses at h
  split at h <;> simp_all [Kind.isWord]

theorem head_mark : ∀ k ∈ Kind.marks, ∀ c ∈ k.spelling.toList.head?,
    isWordPart c = false ∧ c.isDigit = false ∧ (c = '=' → k = .equal) ∧ (c = '*' → k = .star) := by
  simp [Kind.marks, Kind.spelling, isWordPart]

theorem isWord_of_mem_keywords : ∀ k ∈ Kind.keywords, k.isWord = true := by decide

/-- A word goes on with words only. -/
theorem joins_of_word {s : Symbol} {k : Kind} {c : Char} {word : List Char}
    (hk : k.isWord = true) (hword : Piece.isWord word = true) (hc : c ∈ word.head?)
    (h : s.Fuses c = true) : s.kind.joins k = true := by
  have hstart : isWordStart c = true := by
    cases word with
    | nil => cases hc
    | cons d run =>
      obtain rfl : d = c := by simpa using hc
      simp_all [Piece.isWord]
  rcases fuses_cases h with ⟨hs, -⟩ | ⟨-, hdigit⟩ | ⟨-, rfl⟩ | ⟨-, rfl⟩
  · simp [Kind.joins, hs, hk]
  · rw [isWordStart_eq_false hdigit] at hstart
    cases hstart
  · cases hstart
  · cases hstart

/-- A symbol that the first character of the next one goes on with joins with it. -/
theorem Written.joins {s t : Symbol} (ht : t.Written) {c : Char} (hc : c ∈ t.lexeme.toList.head?)
    (h : s.Fuses c = true) : s.kind.joins t.kind = true := by
  cases ht with
  | @word k hk => exact joins_of_word (isWord_of_mem_keywords k hk) (isWord_spelling k hk) hc h
  | @identifier n hn => exact joins_of_word rfl (isIdentifier_iff.1 hn).1 hc h
  | @digits l _ hl =>
    have hdigit : c.isDigit = true := hl c (List.mem_of_head? hc)
    rcases fuses_cases h with ⟨hs, -⟩ | ⟨hs, -⟩ | ⟨-, rfl⟩ | ⟨-, rfl⟩
    · simp [Kind.joins, hs]
    · simp [Kind.joins, hs]
    · cases hdigit
    · cases hdigit
  | @mark k hk =>
    obtain ⟨hpart, hdigit, hequal, hstar⟩ := head_mark k hk c hc
    change s.kind.joins k = true
    rcases fuses_cases h with ⟨-, hpart'⟩ | ⟨-, hdigit'⟩ | ⟨hs, rfl⟩ | ⟨hs, rfl⟩
    · rw [hpart] at hpart'
      cases hpart'
    · rw [hdigit] at hdigit'
      cases hdigit'
    · rw [hequal rfl, Kind.joins]
      simp_all
    · rw [hstar rfl, hs]
      rfl

theorem ends_nil (s : Symbol) : s.Ends [] := by simp [Ends]

theorem Written.toList_ne_nil {s : Symbol} (h : s.Written) : s.lexeme.toList ≠ [] := by
  intro hnil
  obtain ⟨c, rest, htext, -⟩ := h.first_eq s.ends_nil
  rw [hnil] at htext
  cases htext

/-- A symbol ends in front of one that it does not join with. -/
theorem Written.ends {s t : Symbol} (ht : t.Written) (h : s.kind.joins t.kind = false)
    (next : List Char) : s.Ends (t.lexeme.toList ++ next) := by
  intro c hc
  refine Bool.eq_false_iff.2 fun hfuses => Bool.eq_false_iff.1 h (ht.joins ?_ hfuses)
  rwa [List.head?_append_of_ne_nil _ ht.toList_ne_nil] at hc

end Symbol

/-! ## Texts of symbols -/

/-- A symbol in writing, and the separator behind it. -/
structure Spaced where
  symbol : Symbol
  written : symbol.Written
  separator : Separator

namespace Spaced

def text (w : Spaced) : List Char := w.symbol.lexeme.toList ++ w.separator.text

def pieces (w : Spaced) : List Piece :=
  .symbol w.symbol.kind w.symbol.lexeme.toList :: w.separator.pieces

theorem textOf_pieces (ws : List Spaced) : Piece.textOf (ws.flatMap pieces) = ws.flatMap text :=
  List.flatMap_assoc

theorem symbols_pieces (w : Spaced) : w.pieces.filterMap Piece.symbol? = [w.symbol] := by
  simp [pieces, Piece.symbol?, w.separator.symbols_pieces]

theorem problems_pieces (w : Spaced) :
    w.pieces.filterMap Piece.problem? = w.separator.strays.map .unrecognized :=
  w.separator.problems_pieces

/-- No separator is missing between the two symbols. -/
def Apart (w w' : Spaced) : Prop :=
  w.separator.text = [] → w.symbol.kind.joins w'.symbol.kind = false

instance (w w' : Spaced) : Decidable (w.Apart w') :=
  inferInstanceAs (Decidable (w.separator.text = [] → _))

/-- A symbol ends where its separator begins, or else the next symbol. -/
theorem ends {w : Spaced} {ws : List Spaced} (h : ∀ w' ∈ ws.head?, w.Apart w') :
    w.symbol.Ends (w.separator.text ++ ws.flatMap text) := by
  by_cases hsep : w.separator.text = []
  · rw [hsep, List.nil_append]
    cases ws with
    | nil => exact w.symbol.ends_nil
    | cons w' ws =>
      rw [List.flatMap_cons, text, List.append_assoc]
      exact w'.written.ends (h w' rfl hsep) _
  · exact Separator.ends hsep w.symbol _

theorem cuts {ws : List Spaced} (h : ws.IsChain Apart) : Piece.Cuts (ws.flatMap pieces) [] := by
  induction ws with
  | nil => trivial
  | cons w ws ih =>
    obtain ⟨hw, hws⟩ := List.isChain_cons.1 h
    rw [List.flatMap_cons]
    refine Piece.cuts_append.2 ⟨⟨?_, Piece.cuts_of_separates w.separator.separates _⟩, ih hws⟩
    rw [textOf_pieces, List.append_nil]
    exact w.written.first_eq (ends hw)

end Spaced

/-- The text of the symbols with their separators, and a separator in front of them. -/
def writeDown (lead : Separator) (ws : List Spaced) : String :=
  String.ofList (lead.text ++ ws.flatMap Spaced.text)

/-- Scanning undoes writing down: where no separator is missing, the tokens are the symbols that
were written and the end, and the faults are the characters of the separators that begin no symbol,
each once and in order. -/
theorem tokenize_writeDown (lead : Separator) (ws : List Spaced) (h : ws.IsChain Spaced.Apart) :
    ∃ tokens stop, tokens.map Token.toSymbol = ws.map Spaced.symbol ∧
      (tokenize (writeDown lead ws)).1 = tokens ++ [.eof stop] ∧
      (tokenize (writeDown lead ws)).2.map Diagnostic.problem =
        (lead.strays ++ ws.flatMap (·.separator.strays)).map .unrecognized := by
  have hcuts : Piece.Cuts (lead.pieces ++ ws.flatMap Spaced.pieces) [] :=
    Piece.cuts_append.2 ⟨Piece.cuts_of_separates lead.separates _, Spaced.cuts h⟩
  have htext : writeDown lead ws =
      String.ofList (Piece.textOf (lead.pieces ++ ws.flatMap Spaced.pieces)) := by
    rw [Piece.textOf_append, Spaced.textOf_pieces]
    rfl
  have hsymbols : (lead.pieces ++ ws.flatMap Spaced.pieces).filterMap Piece.symbol? =
      ws.map Spaced.symbol := by
    rw [List.filterMap_append, lead.symbols_pieces, List.nil_append, List.filterMap_flatMap,
      List.map_eq_flatMap]
    simp only [Spaced.symbols_pieces]
  have hproblems : (lead.pieces ++ ws.flatMap Spaced.pieces).filterMap Piece.problem? =
      (lead.strays ++ ws.flatMap (·.separator.strays)).map .unrecognized := by
    rw [List.filterMap_append, lead.problems_pieces, List.filterMap_flatMap, List.map_append,
      List.map_flatMap]
    simp only [Spaced.problems_pieces]
  rw [htext, ← hsymbols, ← hproblems]
  exact hcuts.tokenize_eq

/-- A comment, a blank or a character that begins no symbol parts what would run together; all else
stands side by side. The second `(` of the first comment opens a comment in it, so its first `*)`
is not its end. -/
theorem tokenize_writeDown_crowded :
    let none : Separator := ⟨[], by simp⟩
    let one (p : Piece) (h : p.Separates) : Separator := ⟨[p], by simpa using h⟩
    let lead : Separator :=
      ⟨[.unknown 'é', .comment ['(', '*', '(', '*', ')', '*', ')', '*', ')']],
        List.forall_mem_cons.2 ⟨.unknown (by decide), List.forall_mem_singleton.2 <| .comment <|
          @Closes.nested [')', '*', ')'] _ (.char (by simp) (by simp) .bracket) .bracket⟩⟩
    let ws : List Spaced :=
      [⟨⟨.integer, "12"⟩, .digits (by decide) (by simp), none⟩,
        ⟨.identifier "abc", .identifier (by decide), one _ (.comment .bracket)⟩,
        ⟨.ofKind .kwEnd, .word (by decide), none⟩,
        ⟨.ofKind .colon, .mark (by decide), one (.unknown '?') (.unknown (by decide))⟩,
        ⟨.ofKind .equal, .mark (by decide), none⟩,
        ⟨.ofKind .lparen, .mark (by decide), one (.blank '\n') (.blank (by decide))⟩,
        ⟨.ofKind .star, .mark (by decide), none⟩,
        ⟨.ofKind .rparen, .mark (by decide), one (.unknown '$') (.unknown (by decide))⟩]
    ws.IsChain Spaced.Apart ∧ writeDown lead ws = "é(*(*)*)*)12abc(**)END:?=(\n*)$" ∧
      ∃ tokens stop, tokens.map Token.toSymbol =
          [⟨.integer, "12"⟩, .identifier "abc", .ofKind .kwEnd, .ofKind .colon, .ofKind .equal,
            .ofKind .lparen, .ofKind .star, .ofKind .rparen] ∧
        (tokenize "é(*(*)*)*)12abc(**)END:?=(\n*)$").1 = tokens ++ [.eof stop] ∧
        (tokenize "é(*(*)*)*)12abc(**)END:?=(\n*)$").2.map Diagnostic.problem =
          [.unrecognized 'é', .unrecognized '?', .unrecognized '$'] := by
  intro none one lead ws
  have happart : ws.IsChain Spaced.Apart := by decide
  have htext : writeDown lead ws = "é(*(*)*)*)12abc(**)END:?=(\n*)$" := by decide
  obtain ⟨tokens, stop, hsymbols, htokens, hfaults⟩ := tokenize_writeDown lead ws happart
  rw [htext] at htokens hfaults
  exact ⟨happart, htext, tokens, stop, hsymbols, htokens, hfaults⟩

end ModSyntax
