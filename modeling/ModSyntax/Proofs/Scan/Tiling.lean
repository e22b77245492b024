import Mathlib.Data.List.Forall2
import Mathlib.Data.List.Induction
import ModSyntax.Proofs.Scan.Comment
import ModSyntax.Proofs.Scan.Written
import ModSyntax.Proofs.SourceOrder
import ModSyntax.Scan.Lexer

/-!
# The items of a text tile it

Every item comes from a range of the text and tells its characters and its place. The ranges follow
one another, and between them stand blanks and whole comments only (`items_ofString_tile`). So
scanning loses nothing of the text and reads nothing twice.

The place of a character is stated by the text before it (`Position.behind`), without the steps by
which scanning comes to it.
-/

namespace ModSyntax

/-- The place behind the text `before`: its line breaks give the line, and the characters behind the
last of them give the column. -/
def Position.behind (before : List Char) : Position :=
  ⟨1 + before.count '\n', 1 + (before.reverse.takeWhile (· ≠ '\n')).length⟩

theorem Position.start_after (before : List Char) : start.after before = behind before := by
  induction before using List.reverseRecOn with
  | nil => rfl
  | append_singleton before c ih =>
    rw [after_append, ih, after_cons, after_nil, next]
    split <;> simp_all [behind, Nat.add_assoc, Nat.add_comm 1]

theorem Position.behind_after (before text : List Char) :
    (behind before).after text = behind (before ++ text) := by
  rw [← start_after, ← start_after, after_append]

/-- A part of a text: the characters from the index `start` on and before the index `stop`. -/
structure Range where
  start : Nat
  stop : Nat

/-- The characters of the range in a text. -/
def Range.of (r : Range) (text : List Char) : List Char := text.extract r.start r.stop

theorem Range.of_append (before mid behind : List Char) :
    Range.of ⟨before.length, before.length + mid.length⟩ (before ++ (mid ++ behind)) = mid := by
  simp [Range.of]

/-- A text of blanks and whole comments. -/
inductive Gap : List Char → Prop where
  | nil : Gap []
  | blank {c : Char} {rest : List Char} : isBlank c = true → Gap rest → Gap (c :: rest)
  | comment {body rest : List Char} :
      Closes body → Gap rest → Gap ('(' :: '*' :: (body ++ rest))

theorem Gap.append {a b : List Char} (ha : Gap a) (hb : Gap b) : Gap (a ++ b) := by
  induction ha with
  | nil => exact hb
  | blank hc _ ih => exact .blank hc ih
  | comment hbody _ ih => simpa using Gap.comment hbody ih

/-- From the index `i` on, the text is made of the ranges and of gaps: no range is empty, each lies
behind the one before it, and what lies between them, before and behind is a gap. -/
inductive Tiled (text : List Char) : Nat → List Range → Prop where
  | nil {i : Nat} : Gap (text.drop i) → Tiled text i []
  | cons {i : Nat} {r : Range} {ranges : List Range} :
      i ≤ r.start → r.start < r.stop → r.stop ≤ text.length → Gap (text.extract i r.start) →
      Tiled text r.stop ranges → Tiled text i (r :: ranges)

/-- A gap in front of a tiling widens its first gap. -/
theorem Tiled.widen {text : List Char} {i j : Nat} {ranges : List Range} (hle : i ≤ j)
    (hgap : Gap (text.extract i j)) (h : Tiled text j ranges) : Tiled text i ranges := by
  have hdrop : (text.drop i).drop (j - i) = text.drop j := by
    rw [List.drop_drop, Nat.add_sub_cancel' hle]
  cases h with
  | nil hrest =>
    refine .nil ?_
    rw [← List.take_append_drop (j - i) (text.drop i), hdrop]
    exact hgap.append hrest
  | @cons _ r ranges hstart hlt hstop hfirst hranges =>
    refine .cons (Nat.le_trans hle hstart) hlt hstop ?_ hranges
    have hsplit : text.extract i r.start = text.extract i j ++ text.extract j r.start := by
      rw [List.extract_eq_take_drop, show r.start - i = (j - i) + (r.start - j) by omega,
        List.take_add, hdrop]
    exact hsplit ▸ hgap.append hfirst

namespace Item

/-- The item tells what stands in the range: a token has the characters of the range, an
unrecognized character is all of it, and a comment that is not closed goes from its opening to the
end of the text. -/
inductive Tells (text : List Char) (r : Range) : Item → Prop where
  | token {t : Token} : t.kind ≠ .eof → t.lexeme.toList = r.of text → Tells text r (.token t)
  | unrecognized {place : Position} {c : Char} : r.of text = [c] →
      Tells text r (.fault ⟨place, .unrecognized c⟩)
  | unterminated {place : Position} {body : List Char} : text.drop r.start = '(' :: '*' :: body →
      (∀ comment, Closes comment → ¬comment <+: body) → r.stop = text.length →
      Tells text r (.fault ⟨place, .unterminated "comment" ["*)"]⟩)

/-- The item comes from the range: it tells what stands there, and stands where the range begins. -/
structure Covers (text : List Char) (item : Item) (r : Range) : Prop where
  position_eq : item.position = .behind (text.take r.start)
  tells : item.Tells text r

end Item

namespace Piece

/-- At a mark no comment begins. -/
theorem ofMark_eq (c : Char) (rest : List Char) :
    (∃ k text, (ofMark c rest).1 = symbol k text) ∨ ∃ d, (ofMark c rest).1 = unknown d := by
  have hchar : (∃ k text, ofChar c = symbol k text) ∨ ∃ d, ofChar c = unknown d := by
    unfold ofChar
    split
    · exact .inl ⟨_, _, rfl⟩
    · exact .inr ⟨_, rfl⟩
  rcases ofMark_cases c rest with ⟨d, behind, k, -, -, h⟩ | ⟨-, h⟩ <;> rw [h]
  · exact .inl ⟨_, _, rfl⟩
  · exact hchar

/-- A piece that gives no item is a gap. -/
theorem gap_of_first {c : Char} {rest : List Char} {place : Position}
    (h : (first c rest).1.item? place = none) : Gap (first c rest).1.text := by
  revert h
  fun_cases first c rest with
  | case1 _ _ hblank => exact fun _ => .blank hblank .nil
  | case2 => rintro ⟨⟩
  | case3 => rintro ⟨⟩
  | case4 body =>
    unfold ofComment
    split
    · next rest hafter =>
      obtain ⟨body, hbody, rfl⟩ := afterComment_eq_some_iff.1 hafter
      intro _
      simpa using Gap.comment hbody .nil
    · rintro ⟨⟩
  | case5 =>
    rcases ofMark_eq c rest with ⟨k, text, h⟩ | ⟨d, h⟩ <;> rw [h] <;> rintro ⟨⟩

/-- A comment that is not closed is the rest of the text, and no comment stands there. -/
theorem unclosed_of_first {c : Char} {rest text : List Char}
    (h : (first c rest).1 = .unclosed text) :
    ∃ body, c :: rest = '(' :: '*' :: body ∧ text = c :: rest ∧
      ∀ comment, Closes comment → ¬comment <+: body := by
  revert h
  fun_cases first c rest with
  | case1 => rintro ⟨⟩
  | case2 => rintro ⟨⟩
  | case3 => rintro ⟨⟩
  | case4 body =>
    unfold ofComment
    split
    · rintro ⟨⟩
    · next hafter =>
      rintro ⟨⟩
      refine ⟨body, rfl, rfl, ?_⟩
      rintro comment hcomment ⟨rest, hrest⟩
      rw [afterComment_eq_some_iff.2 ⟨comment, hcomment, hrest.symm⟩] at hafter
      cases hafter
  | case5 =>
    rcases ofMark_eq c rest with ⟨k, text, h⟩ | ⟨d, h⟩ <;> rw [h] <;> rintro ⟨⟩

/-- A piece that gives an item is its range. -/
theorem tells_of_first {before : List Char} {c : Char} {rest : List Char} {place : Position}
    {item : Item} (h : (first c rest).1.item? place = some item) :
    item.Tells (before ++ c :: rest)
      ⟨before.length, before.length + (first c rest).1.text.length⟩ := by
  have hof := Range.of_append before (first c rest).1.text (first c rest).2
  rw [text_first] at hof
  cases hpiece : (first c rest).1 with
  | blank | comment => simp [hpiece, item?] at h
  | symbol k text =>
    obtain rfl : Item.token ⟨⟨k, String.ofList text⟩, place⟩ = item := by
      simpa [hpiece, item?] using h
    rw [hpiece] at hof
    exact .token (Symbol.written_of_first hpiece).kind_ne_eof (by simpa using hof.symm)
  | unknown d =>
    obtain rfl : Item.fault ⟨place, .unrecognized d⟩ = item := by
      simpa [hpiece, item?] using h
    rw [hpiece] at hof
    exact .unrecognized hof
  | unclosed text =>
    obtain rfl : Item.fault ⟨place, .unterminated "comment" ["*)"]⟩ = item := by
      simpa [hpiece, item?] using h
    obtain ⟨body, hbody, rfl, hopen⟩ := unclosed_of_first hpiece
    exact .unterminated (List.drop_left.trans hbody) hopen List.length_append.symm

end Piece

/-- The items behind `before` tile the rest of the text, and the end of the text follows them. -/
theorem scanFrom_tile (before rest : List Char) :
    ∃ front ranges, scanFrom [] (.behind before) rest =
        front ++ [.token (.eof (.behind (before ++ rest)))] ∧
      Tiled (before ++ rest) before.length ranges ∧
      List.Forall₂ (Item.Covers (before ++ rest)) front ranges := by
  match rest with
  | [] => exact ⟨[], [], by simp, .nil (by simpa using Gap.nil), .nil⟩
  | c :: rest =>
    have htext := Piece.text_first c rest
    obtain ⟨front, ranges, hscan, htiled, hcovers⟩ :=
      scanFrom_tile (before ++ (Piece.first c rest).1.text) (Piece.first c rest).2
    rw [List.append_assoc, htext] at hscan htiled hcovers
    rw [scanFrom_cons, Position.behind_after, hscan]
    rw [List.length_append] at htiled
    have hof := Range.of_append before (Piece.first c rest).1.text (Piece.first c rest).2
    rw [htext] at hof
    cases hitem : (Piece.first c rest).1.item? (.behind before) with
    | none =>
      refine ⟨front, ranges, rfl, htiled.widen (Nat.le_add_right _ _) ?_, hcovers⟩
      change Gap (Range.of ⟨before.length, _⟩ _)
      rw [hof]
      exact Piece.gap_of_first hitem
    | some item =>
      refine ⟨item :: front, ⟨before.length, _⟩ :: ranges, rfl, ?_,
        .cons ⟨?_, Piece.tells_of_first hitem⟩ hcovers⟩
      · have hpos := List.length_pos_iff.2 (Piece.text_first_ne_nil c rest)
        refine .cons (Nat.le_refl _) (Nat.lt_add_of_pos_right hpos) ?_ ?_ htiled
        · rw [← htext]
          simp
        · simpa using Gap.nil
      · rw [Piece.position_of_item? hitem, List.take_left]
termination_by rest.length
decreasing_by exact Piece.length_first_lt c rest

namespace Lexer

theorem items_of_next? {l behind : Lexer} {item : Item} (h : l.next? = some (item, behind)) :
    l.items = item :: behind.items := by
  rw [items]
  split
  · next hnone => simp [h] at hnone
  · next hsome =>
    obtain ⟨rfl, rfl⟩ := Prod.mk.inj (Option.some.inj (h.symm.trans hsome))
    rfl

theorem items_of_finished {l : Lexer} (h : l.finished = true) : l.items = [] := by
  rw [items]
  split
  · rfl
  · next hsome => simp [next?, h] at hsome

theorem items_eq_of_next? {l behind : Lexer} (h : l.next? = behind.next?) :
    l.items = behind.items := by
  rw [items.eq_def, items.eq_def, h]

/-- Scanning on demand gives the items of the rest of the text. -/
theorem items_mk (source : String) (rest : List Char) (position : Position) :
    items ⟨source, rest, position, false⟩ = scanFrom [] position rest := by
  match rest with
  | [] =>
    have hnext : next? ⟨source, [], position, false⟩ =
        some (.token (.eof position), ⟨source, [], position, true⟩) := by
      simp [next?]
    rw [items_of_next? hnext, items_of_finished rfl, scanFrom_nil]
  | c :: rest =>
    rw [scanFrom_cons, ← items_mk source (Piece.first c rest).2]
    cases hitem : (Piece.first c rest).1.item? position with
    | none =>
      refine items_eq_of_next? ?_
      rw [next?]
      simp [hitem]
    | some item =>
      refine items_of_next? ?_
      rw [next?]
      simp [hitem]
termination_by rest.length
decreasing_by exact Piece.length_first_lt c rest

end Lexer

/-- The items of a text are those before its end, and one token for the end at the place behind the
whole text. Those before it come from ranges that tile the text, and the places of all items
increase. -/
theorem items_ofString_tile (source : String) :
    ∃ front ranges, (Lexer.ofString source).items =
        front ++ [.token (.eof (.behind source.toList))] ∧
      Tiled source.toList 0 ranges ∧
      List.Forall₂ (Item.Covers source.toList) front ranges ∧
      (Lexer.ofString source).items.Pairwise (·.position < ·.position) := by
  obtain ⟨front, ranges, hscan, htiled, hcovers⟩ := scanFrom_tile [] source.toList
  have hitems : (Lexer.ofString source).items = scanFrom [] .start source.toList :=
    Lexer.items_mk source _ _
  refine ⟨front, ranges, ?_, htiled, hcovers, ?_⟩
  · rw [hitems]
    exact hscan
  · rw [hitems]
    exact (increasing_scanFrom .start source.toList).2

end ModSyntax
