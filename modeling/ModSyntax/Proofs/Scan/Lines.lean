import ModSyntax.Proofs.Scan.Cutting
import ModSyntax.Proofs.Scan.Tiling

/-!
# Scanning line by line

A line break ends whatever stands before it, except a comment that is not closed. So a text can be
scanned in two parts at any line break outside comments: the items of the second part only stand
further down (`items_newline`).
-/

namespace ModSyntax

/-! ## Lines further down -/

/-- The place in the same column, `n` lines further down. -/
def Position.down (n : Nat) (p : Position) : Position := ⟨p.line + n, p.column⟩

theorem Position.after_down (n : Nat) (p : Position) (text : List Char) :
    (p.down n).after text = (p.after text).down n := by
  induction text generalizing p with
  | nil => rfl
  | cons c text ih =>
    have hnext : (p.down n).next c = (p.next c).down n := by
      unfold next
      split <;> simp [down, Nat.add_right_comm]
    rw [after_cons, after_cons, hnext, ih]

/-- Behind a line break, the place is at the beginning of a line. -/
theorem Position.start_after_newline (text : List Char) :
    start.after (text ++ ['\n']) = start.down (1 + text.count '\n') := by
  rw [start_after]
  simp [behind, down, start, Nat.add_comm]

/-- The item, found `n` lines further down. -/
def Item.down (n : Nat) : Item → Item
  | token t => token { t with position := t.position.down n }
  | fault d => fault { d with position := d.position.down n }

theorem Piece.item?_down (n : Nat) (place : Position) (p : Piece) :
    p.item? (place.down n) = (p.item? place).map (Item.down n) := by
  cases p <;> rfl

/-- The place where a text begins only moves its items. -/
theorem scanFrom_down (n : Nat) (place : Position) (text : List Char) :
    scanFrom [] (place.down n) text = (scanFrom [] place text).map (Item.down n) := by
  match text with
  | [] => simp [Item.down, Token.eof]
  | c :: rest =>
    rw [scanFrom_cons, scanFrom_cons, Piece.item?_down, Position.after_down,
      scanFrom_down n _ (Piece.first c rest).2, List.map_append, Option.toList_map]
termination_by text.length
decreasing_by exact Piece.length_first_lt c rest

/-! ## Texts without an open comment -/

/-- Where no fault is an open comment, none of the pieces is one. -/
theorem Piece.closed_of_items {place : Position} {ps : List Piece}
    (h : ∀ d ∈ (items place ps).filterMap Item.fault?, d.problem ≠ .unterminated "comment" ["*)"]) :
    ∀ p ∈ ps, ∀ text, p ≠ .unclosed text := by
  rintro _ hp text rfl
  have hproblem : .unterminated "comment" ["*)"] ∈ ps.filterMap problem? :=
    List.mem_filterMap.2 ⟨_, hp, rfl⟩
  rw [← problems_items place ps] at hproblem
  obtain ⟨d, hd, heq⟩ := List.mem_map.1 hproblem
  exact h d hd heq

/-- The pieces of a text in which every comment is closed are cut off in front of a line break. -/
theorem exists_cuts_newline (a : String)
    (h : ∀ d ∈ (tokenize a).2, d.problem ≠ .unterminated "comment" ["*)"]) :
    ∃ ps, Piece.textOf ps = a.toList ∧ Piece.Cuts ps [] ∧
      ∀ next, Piece.Cuts ps ('\n' :: next) := by
  obtain ⟨ps, htext, hcuts⟩ := Piece.exists_cuts a.toList
  have hscan := hcuts.tokenize_items
  rw [htext, String.ofList_toList] at hscan
  rw [hscan] at h
  have hclosed := Piece.closed_of_items h
  exact ⟨ps, htext, hcuts, fun next => hcuts.before hclosed fun s _ =>
    (Layout.quiet_cons (by decide) next).ends s⟩

/-- If every comment of `a` is closed, the items of `a`, a line break and `b` are those of `a`
before its end, and those of `b` as many lines further down as there are line breaks before
them. -/
theorem items_newline (a b : String)
    (h : ∀ d ∈ (tokenize a).2, d.problem ≠ .unterminated "comment" ["*)"]) :
    ∃ front stop, (Lexer.ofString a).items = front ++ [.token (.eof stop)] ∧
      (Lexer.ofString (a ++ "\n" ++ b)).items =
        front ++ (Lexer.ofString b).items.map (Item.down (1 + a.toList.count '\n')) := by
  obtain ⟨ps, htext, hcuts, hnewline⟩ := exists_cuts_newline a h
  refine ⟨Piece.items .start ps, Position.start.after a.toList, ?_, ?_⟩
  · have hscan := hcuts.scanFrom_eq .start
    rw [List.append_nil, htext, scanFrom_nil] at hscan
    exact (Lexer.items_mk a _ _).trans hscan
  · have hfirst : Piece.first '\n' b.toList = (.blank '\n', b.toList) := rfl
    have hsource : (a ++ "\n" ++ b).toList = Piece.textOf ps ++ '\n' :: b.toList := by simp [htext]
    rw [Lexer.ofString, Lexer.ofString, Lexer.items_mk, Lexer.items_mk, hsource,
      (hnewline b.toList).scanFrom_eq, scanFrom_cons, hfirst, ← scanFrom_down,
      ← Position.start_after_newline, htext, Position.after_append]
    rfl

/-- The break ends the word `a`, a character that begins no symbol, and no comment. -/
theorem items_newline_word :
    let a := "(* *)\né a"
    let b := "b (*"
    (∀ d ∈ (tokenize a).2, d.problem ≠ .unterminated "comment" ["*)"]) ∧
    ∃ front stop, (Lexer.ofString a).items = front ++ [.token (.eof stop)] ∧
      (Lexer.ofString (a ++ "\n" ++ b)).items =
        front ++ (Lexer.ofString b).items.map (Item.down 2) := by
  intro a b
  have hclosed : ∀ d ∈ (tokenize a).2, d.problem ≠ .unterminated "comment" ["*)"] := by
    decide +kernel
  have hcount : 1 + a.toList.count '\n' = 2 := by decide
  exact ⟨hclosed, hcount ▸ items_newline a b hclosed⟩

end ModSyntax
