import Mathlib.Data.List.Forall2
import ModSyntax.Print.Layout
import ModSyntax.Proofs.Scan.Written
import ModSyntax.Proofs.Tree.Symbols

/-!
# Scanning a layout

The text of a layout scans back to its symbols if each of them ends where its span does, that is, if
the first character behind a span never goes on with its symbol. `Layout.Spells A B l word` says so
of a layout with the symbols `word` that stands in front of a text as `B` allows; the text that
begins with the layout is then as `A` says, so that layouts can be put together.
-/

namespace ModSyntax

namespace Layout

/-- The symbols of the layout. -/
def symbols (l : Layout) : List Symbol :=
  l.filterMap fun
    | .symbol s => some s
    | .gap _ => none

/-- The characters of the layout. -/
def chars (l : Layout) : List Char := l.flatMap (·.text.toList)

@[simp] theorem symbols_nil : symbols [] = [] := rfl

@[simp] theorem symbols_symbol (s : Symbol) (l : Layout) :
    symbols (.symbol s :: l) = s :: symbols l := rfl

@[simp] theorem symbols_gap (blanks : String) (l : Layout) :
    symbols (.gap blanks :: l) = symbols l := rfl

@[simp] theorem symbols_append (l l' : Layout) : symbols (l ++ l') = symbols l ++ symbols l' :=
  List.filterMap_append

@[simp] theorem chars_nil : chars [] = [] := rfl

@[simp] theorem chars_cons (s : Span) (l : Layout) :
    chars (s :: l) = s.text.toList ++ chars l := rfl

@[simp] theorem chars_append (l l' : Layout) : chars (l ++ l') = chars l ++ chars l' :=
  List.flatMap_append

theorem toList_text (l : Layout) : l.text.toList = l.chars := by
  simp [text, chars, List.flatMap_map]

/-- In front of the text `next`, every symbol ends where its span does. -/
def Legible : Layout → List Char → Prop
  | [], _ => True
  | .gap blanks :: l, next => (∀ c ∈ blanks.toList, isBlank c = true) ∧ Legible l next
  | .symbol s :: l, next => s.Written ∧ s.Ends (chars l ++ next) ∧ Legible l next

theorem legible_append {l l' : Layout} {next : List Char} :
    Legible (l ++ l') next ↔ Legible l (chars l' ++ next) ∧ Legible l' next := by
  induction l with
  | nil => simp [Legible]
  | cons s l ih => cases s <;> simp [Legible, ih, and_assoc]

end Layout

theorem scanFrom_blanks {blanks : List Char} (h : ∀ c ∈ blanks, isBlank c = true) (place : Position)
    (next : List Char) :
    scanFrom [] place (blanks ++ next) = scanFrom [] (place.after blanks) next := by
  induction blanks generalizing place with
  | nil => rfl
  | cons c blanks ih =>
    have hfirst : Piece.first c (blanks ++ next) = (.blank c, blanks ++ next) := by
      unfold Piece.first
      rw [if_pos (h c (by simp))]
    rw [List.cons_append, scanFrom_cons, hfirst]
    exact ih (fun d hd => h d (by simp [hd])) _

namespace Layout

/-- A legible layout gives one token for every symbol, and no fault. -/
theorem Legible.scanFrom_eq {l : Layout} {next : List Char} (h : l.Legible next)
    (place : Position) :
    ∃ tokens : List Token, tokens.map Token.toSymbol = l.symbols ∧
      scanFrom [] place (l.chars ++ next) =
        tokens.map .token ++ scanFrom [] (place.after l.chars) next := by
  induction l generalizing place with
  | nil => exact ⟨[], rfl, rfl⟩
  | cons s l ih =>
    cases s with
    | gap blanks =>
      obtain ⟨tokens, hsymbols, hscan⟩ := ih h.2 (place.after blanks.toList)
      refine ⟨tokens, hsymbols, ?_⟩
      rw [chars_cons, List.append_assoc, Position.after_append, Span.text, ← hscan]
      exact scanFrom_blanks h.1 place _
    | symbol s =>
      obtain ⟨hs, hends, hl⟩ := h
      obtain ⟨tokens, hsymbols, hscan⟩ := ih hl (place.after s.lexeme.toList)
      obtain ⟨c, rest, htext, hfirst⟩ := hs.first_eq hends
      refine ⟨⟨s, place⟩ :: tokens, by simp [hsymbols], ?_⟩
      rw [chars_cons, List.append_assoc, Position.after_append, Span.text, htext, scanFrom_cons,
        hfirst]
      simp [Piece.item?, hscan]

/-- The text of a legible layout has its symbols as tokens, then the end, and no fault. -/
theorem Legible.tokenize_text {l : Layout} (h : l.Legible []) :
    ∃ (tokens : List Token) (stop : Position), tokens.map Token.toSymbol = l.symbols ∧
      tokenize l.text = (tokens ++ [.eof stop], []) := by
  obtain ⟨tokens, hsymbols, hscan⟩ := h.scanFrom_eq .start
  refine ⟨tokens, Position.start.after l.chars, hsymbols, ?_⟩
  have hscan : scan l.text =
      tokens.map .token ++ [.token (.eof (Position.start.after l.chars))] := by
    rw [scan, toList_text]
    simpa using hscan
  simp [tokenize, hscan, List.filterMap_append, List.filterMap_map, Function.comp_def, Item.token?,
    Item.fault?]

theorem Legible.written {l : Layout} {next : List Char} (h : l.Legible next) :
    ∀ s ∈ l.symbols, s.Written := by
  induction l with
  | nil => simp
  | cons s l ih =>
    cases s with
    | gap blanks => exact ih h.2
    | symbol s => simpa using ⟨h.1, ih h.2.2⟩

/-! ## Putting layouts together -/

/-- Nothing is asked of the text. -/
def Anything (_ : List Char) : Prop := True

/-- The text does not begin with a star. -/
def Unstarred (text : List Char) : Prop := ∀ c ∈ text.head?, c ≠ '*'

/-- The text begins with a character that goes on with no symbol. -/
def Quiet (text : List Char) : Prop := ∀ c ∈ text.head?, isWordPart c = false ∧ c ≠ '=' ∧ c ≠ '*'

theorem Quiet.unstarred {text : List Char} (h : Quiet text) : Unstarred text :=
  fun c hc => (h c hc).2.2

theorem Quiet.ends {text : List Char} (h : Quiet text) (s : Symbol) : s.Ends text := by
  intro c hc
  obtain ⟨hpart, heq, hstar⟩ := h c hc
  have hdigit : c.isDigit = false := Bool.eq_false_iff.2 fun hd =>
    Bool.eq_false_iff.1 hpart (Piece.isWordPart_of_isDigit hd)
  unfold Symbol.Fuses
  split <;> simp [hpart, hdigit, heq, hstar]

/-- The layout has the symbols `word`. In front of a text as `B` allows it is legible, and with that
text it is as `A` says. -/
structure Spells (A B : List Char → Prop) (l : Layout) (word : List Symbol) : Prop where
  symbols_eq : l.symbols = word
  legible : ∀ next, B next → l.Legible next
  begins : ∀ next, B next → A (l.chars ++ next)

variable {A A' B B' C : List Char → Prop} {l l' : Layout} {u v w : List Symbol}

theorem Spells.append (h : l.Spells A B u) (h' : l'.Spells B C v) :
    (l ++ l').Spells A C (u ++ v) where
  symbols_eq := by rw [symbols_append, h.symbols_eq, h'.symbols_eq]
  legible next hnext := legible_append.2 ⟨h.legible _ (h'.begins next hnext), h'.legible next hnext⟩
  begins next hnext := by
    rw [chars_append, List.append_assoc]
    exact h.begins _ (h'.begins next hnext)

theorem Spells.mono (h : l.Spells A B w) (hA : ∀ text, A text → A' text)
    (hB : ∀ text, B' text → B text) : l.Spells A' B' w where
  symbols_eq := h.symbols_eq
  legible next hnext := h.legible next (hB next hnext)
  begins next hnext := hA _ (h.begins next (hB next hnext))

/-- A layout with marks at its ends can stand wherever a word can. -/
theorem Spells.weaken (h : l.Spells Quiet Anything w) : l.Spells Unstarred Quiet w :=
  h.mono (fun _ h => h.unstarred) fun _ _ => trivial

/-- Behind a layout that anything may follow. -/
theorem Spells.before (h : l.Spells A Anything u) (h' : l'.Spells B C v) :
    (l ++ l').Spells A C (u ++ v) :=
  h.append (h'.mono (fun _ _ => trivial) fun _ h => h)

theorem spells_nil (hB : ∀ text, B text → A text) : Spells A B [] [] where
  symbols_eq := rfl
  legible _ _ := trivial
  begins next hnext := hB next hnext

/-- One symbol, in front of what ends it. -/
theorem spells_symbol {s : Symbol} (hs : s.Written) (hends : ∀ text, B text → s.Ends text)
    (hbegins : ∀ text, A (s.lexeme.toList ++ text)) : Spells A B [.symbol s] [s] where
  symbols_eq := rfl
  legible next hnext := ⟨hs, hends next hnext, trivial⟩
  begins next _ := by simpa [Span.text] using hbegins next

theorem spells_gap {blanks : String} (h : ∀ c ∈ blanks.toList, isBlank c = true)
    (hB : ∀ text, B text → A (blanks.toList ++ text)) : Spells A B [.gap blanks] [] where
  symbols_eq := rfl
  legible next _ := ⟨h, trivial⟩
  begins next hnext := by simpa [Span.text] using hB next hnext

theorem spells_space : Spells Quiet Anything [space] [] :=
  spells_gap (by simp [isBlank]) fun _ _ => by simp [Quiet, isWordPart]

theorem spells_newline : Spells Quiet Anything [newline] [] :=
  spells_gap (by simp [isBlank]) fun _ _ => by simp [Quiet, isWordPart]

theorem isBlank_of_mem_pushn {n : Nat} {c : Char} (h : c ∈ ("".pushn ' ' n).toList) :
    isBlank c = true := by
  rw [String.pushn_eq_repeat_push] at h
  induction n with
  | zero => simp [Nat.repeat] at h
  | succ n ih =>
    have h : c ∈ (Nat.repeat (fun s => s.push ' ') n "").toList ∨ c = ' ' := by
      simpa [Nat.repeat] using h
    rcases h with h | rfl
    · exact ih h
    · rfl

theorem spells_indent (level : Nat) : Spells Anything Anything [indent level] [] :=
  spells_gap (fun _ => isBlank_of_mem_pushn) fun _ _ => trivial

/-- Word characters are no star. -/
theorem unstarred_append {cs : List Char} (hne : cs ≠ []) (h : ∀ c ∈ cs, isWordPart c = true)
    (text : List Char) : Unstarred (cs ++ text) := by
  cases cs with
  | nil => exact absurd rfl hne
  | cons c cs =>
    rintro d hd rfl
    obtain rfl : c = '*' := by simpa using hd
    exact absurd (h '*' (by simp)) (by decide)

theorem unstarred_word {word : List Char} (h : Piece.isWord word = true) (text : List Char) :
    Unstarred (word ++ text) := by
  cases word with
  | nil => simp [Piece.isWord] at h
  | cons c run =>
    obtain ⟨hc, hrun⟩ : isWordStart c = true ∧ ∀ d ∈ run, isWordPart d = true := by
      simpa [Piece.isWord] using h
    refine unstarred_append (by simp) (fun d hd => ?_) text
    rcases List.mem_cons.1 hd with rfl | hd
    · exact Piece.isWordPart_of_isWordStart hc
    · exact hrun d hd

theorem spells_word {k : Kind} (hk : k ∈ Kind.keywords) :
    Spells Unstarred Quiet [word k] [.ofKind k] :=
  spells_symbol (.word hk) (fun _ h => h.ends _) (unstarred_word (Symbol.isWord_spelling k hk))

theorem spells_identifier {n : String} (h : isIdentifier n = true) :
    Spells Unstarred Quiet [.symbol (.identifier n)] [.identifier n] :=
  spells_symbol (.identifier h) (fun _ h => h.ends _)
    (unstarred_word (Piece.isIdentifier_iff.1 h).1)

theorem toList_toString (n : Nat) :
    (toString n).toList ≠ [] ∧ ∀ c ∈ (toString n).toList, c.isDigit = true := by
  rw [Nat.toString_eq_ofList_toDigits, String.toList_ofList]
  exact ⟨Nat.toDigits_ne_nil,
    fun c => Nat.isDigit_of_mem_toDigits (b := 10) (by decide) (by decide)⟩

theorem quiet_cons {c : Char} (h : isWordPart c = false ∧ c ≠ '=' ∧ c ≠ '*') (text : List Char) :
    Quiet (c :: text) := by
  intro d hd
  obtain rfl : c = d := by simpa using hd
  exact h

/-- The marks that any text may follow. -/
def looseMarks : List Kind := [.semicolon, .period, .rparen, .comma, .plus, .minus]

theorem spells_mark {k : Kind} (hk : k ∈ looseMarks) :
    Spells Quiet Anything [word k] [.ofKind k] := by
  simp only [looseMarks, List.mem_cons, List.not_mem_nil, or_false] at hk
  rcases hk with rfl | rfl | rfl | rfl | rfl | rfl <;>
    exact spells_symbol (.mark (by decide)) (fun _ _ _ _ => rfl) (quiet_cons (by decide))

theorem spells_lparen : Spells Quiet Unstarred [word .lparen] [.ofKind .lparen] :=
  spells_symbol (.mark (by decide)) (fun _ h c hc => decide_eq_false (h c hc))
    (quiet_cons (by decide))

theorem spells_colon : Spells Quiet Quiet [word .colon] [.ofKind .colon] :=
  spells_symbol (.mark (by decide)) (fun _ h => h.ends _) (quiet_cons (by decide))

/-- Between spaces, any word or mark can stand. -/
theorem spells_spaced {k : Kind} (hk : k ∈ Kind.keywords ++ Kind.marks) :
    Spells Quiet Anything (spaced k) [.ofKind k] := by
  have hword : Spells Anything Quiet [word k] [.ofKind k] := by
    refine spells_symbol ?_ (fun _ h => h.ends _) fun _ => trivial
    exact (List.mem_append.1 hk).elim .word .mark
  exact spells_space.before (hword.append spells_space)

theorem spells_integer (n : Int) :
    (integer n).Spells Unstarred Quiet (integerSymbols n) := by
  have hdigits : Spells Unstarred Quiet [.symbol (.integer n.natAbs)] [.integer n.natAbs] := by
    obtain ⟨hne, hdigit⟩ := toList_toString n.natAbs
    exact spells_symbol (.digits hne hdigit) (fun _ h => h.ends _)
      (unstarred_append hne fun c hc => Piece.isWordPart_of_isDigit (hdigit c hc))
  unfold integer integerSymbols
  split
  · exact ((spells_mark (by decide)).before hdigits).mono (fun _ h => h.unstarred) fun _ h => h
  · exact hdigits

theorem intercalate_cons (sep l : Layout) (ls : List Layout) :
    List.intercalate sep (l :: ls) = l ++ ls.flatMap (sep ++ ·) := by
  induction ls generalizing l with
  | nil => simp
  | cons l' ls ih => rw [List.intercalate_cons_cons, ih]; simp

/-- Layouts with a separator between them. -/
theorem spells_intercalate {sep : Layout} {s : Symbol} (hsep : sep.Spells Quiet Unstarred [s])
    {ls : List Layout} {ws : List (List Symbol)} (h : List.Forall₂ (Spells Unstarred Quiet) ls ws) :
    Spells Unstarred Quiet (List.intercalate sep ls) (separated s ws) := by
  have hmore {ls : List Layout} {ws : List (List Symbol)}
      (h : List.Forall₂ (Spells Unstarred Quiet) ls ws) :
      Spells Quiet Quiet (ls.flatMap (sep ++ ·)) (ws.flatMap (s :: ·)) := by
    induction h with
    | nil => exact spells_nil fun _ h => h
    | cons h _ ih => exact (hsep.append h).append ih
  cases h with
  | nil => exact spells_nil fun _ h => h.unstarred
  | cons h hls =>
    rw [intercalate_cons]
    exact h.append (hmore hls)

theorem spells_commas {ls : List Layout} {ws : List (List Symbol)}
    (h : List.Forall₂ (Spells Unstarred Quiet) ls ws) :
    Spells Unstarred Quiet (commas ls) (separated (.ofKind .comma) ws) :=
  spells_intercalate (((spells_mark (by decide)).before spells_space).mono (fun _ h => h)
    fun _ _ => trivial) h

/-- A line, whatever stands behind it. -/
theorem Spells.line (h : l.Spells A Quiet w) (level : Nat) :
    Spells Anything Anything (line level l) w := by
  have hline := (spells_indent level).before (h.append spells_newline)
  simpa [Layout.line] using hline

end Layout

end ModSyntax
