import ModSyntax.Proofs.Scan.Tiling

/-!
# Comments are skipped whole

Where `(*` begins, the text behind it decides alone what is skipped: the comment that stands there,
of which there is at most one, or everything up to the end of the text (`next?_comment`).
-/

namespace ModSyntax

/-- A whole comment: its opening bracket, and all that belongs to it up to its closing bracket. -/
def IsComment (text : List Char) : Prop := ∃ body, Closes body ∧ text = '(' :: '*' :: body

namespace Piece

variable {body comment behind : List Char}

/-- A comment is cut off whatever follows it. -/
theorem ofComment_of_isComment (h : IsComment comment)
    (htext : '(' :: '*' :: body = comment ++ behind) :
    ofComment body = (.comment comment, behind) := by
  obtain ⟨inner, hinner, rfl⟩ := h
  obtain rfl : body = inner ++ behind := by simpa using htext
  simp [ofComment, hinner.afterComment_eq behind]

/-- What is cut off as a comment is one. -/
theorem isComment_of_ofComment (h : ofComment body = (.comment comment, behind)) :
    IsComment comment ∧ '(' :: '*' :: body = comment ++ behind := by
  have htext := text_ofComment body
  rw [h] at htext
  refine ⟨?_, htext.symm⟩
  unfold ofComment at h
  split at h
  · next rest hafter =>
    obtain ⟨inner, hinner, rfl⟩ := afterComment_eq_some_iff.1 hafter
    obtain ⟨hcomment, -⟩ := Prod.mk.inj h
    exact ⟨inner, hinner, by simpa using (Piece.comment.inj hcomment).symm⟩
  · cases (Prod.mk.inj h).1

/-- Where no comment stands, all of the text is cut off. -/
theorem ofComment_of_open
    (h : ¬∃ comment, IsComment comment ∧ comment <+: '(' :: '*' :: body) :
    ofComment body = (.unclosed ('(' :: '*' :: body), []) := by
  unfold ofComment
  split
  · next rest hafter =>
    obtain ⟨inner, hinner, rfl⟩ := afterComment_eq_some_iff.1 hafter
    exact absurd ⟨_, ⟨inner, hinner, rfl⟩, rest, rfl⟩ h
  · rfl

/-- At most one comment stands at the beginning of a text. -/
theorem isComment_unique {other : List Char} (h : IsComment comment) (hother : IsComment other)
    (hle : comment <+: '(' :: '*' :: body) (hle' : other <+: '(' :: '*' :: body) :
    other = comment := by
  obtain ⟨behind, hbehind⟩ := hle
  obtain ⟨behind', hbehind'⟩ := hle'
  have hcut := (ofComment_of_isComment h hbehind.symm).symm.trans
    (ofComment_of_isComment hother hbehind'.symm)
  exact (Piece.comment.inj (Prod.mk.inj hcut).1).symm

end Piece

theorem Lexer.next?_open (source : String) (body : List Char) (place : Position) :
    next? ⟨source, '(' :: '*' :: body, place, false⟩ =
      match (Piece.ofComment body).1.item? place with
      | some item => some (item, ⟨source, (Piece.ofComment body).2,
          place.after (Piece.ofComment body).1.text, false⟩)
      | none => next? ⟨source, (Piece.ofComment body).2,
          place.after (Piece.ofComment body).1.text, false⟩ := by
  have hfirst : Piece.first '(' ('*' :: body) = Piece.ofComment body := rfl
  rw [next?]
  cases hitem : (Piece.ofComment body).1.item? place <;> simp [hfirst, hitem]

/-- Where `(*` begins behind the text `before`, a comment is cut off exactly if one stands there. It
is then the only one, just its characters are skipped, and scanning goes on behind them. If none
stands there, the rest of the text is one fault at the place of the outermost opening, and the end
of the text follows. -/
theorem next?_comment (source : String) (before body : List Char) :
    let text := '(' :: '*' :: body
    let l : Lexer := ⟨source, text, .behind before, false⟩
    ((∃ comment behind, Piece.ofComment body = (.comment comment, behind)) ↔
      ∃ comment, IsComment comment ∧ comment <+: text) ∧
    (∀ comment behind, IsComment comment → text = comment ++ behind →
      (∀ other, IsComment other → other <+: text → other = comment) ∧
      Piece.ofComment body = (.comment comment, behind) ∧
      l.next? = Lexer.next? ⟨source, behind, .behind (before ++ comment), false⟩) ∧
    ((¬∃ comment, IsComment comment ∧ comment <+: text) →
      let stop := Position.behind (before ++ text)
      Piece.ofComment body = (.unclosed text, []) ∧
      l.next? = some (.fault ⟨.behind before, .unterminated "comment" ["*)"]⟩,
        ⟨source, [], stop, false⟩) ∧
      Lexer.next? ⟨source, [], stop, false⟩ =
        some (.token (.eof stop), ⟨source, [], stop, true⟩)) := by
  intro text l
  refine ⟨⟨?_, ?_⟩, fun comment behind hcomment htext => ?_, fun hopen => ?_⟩
  · rintro ⟨comment, behind, hcut⟩
    obtain ⟨hcomment, htext⟩ := Piece.isComment_of_ofComment hcut
    exact ⟨comment, hcomment, behind, htext.symm⟩
  · rintro ⟨comment, hcomment, behind, htext⟩
    exact ⟨comment, behind, Piece.ofComment_of_isComment hcomment htext.symm⟩
  · have hcut := Piece.ofComment_of_isComment hcomment htext
    refine ⟨fun other hother hle => ?_, hcut, ?_⟩
    · exact Piece.isComment_unique hcomment hother ⟨behind, htext.symm⟩ hle
    · rw [Lexer.next?_open, hcut]
      simp [Piece.item?, Position.behind_after]
  · have hcut := Piece.ofComment_of_open hopen
    refine ⟨hcut, ?_, ?_⟩
    · rw [Lexer.next?_open, hcut]
      simp only [Piece.item?, Piece.text_unclosed, Position.behind_after]
      rfl
    · rw [Lexer.next?]
      rfl

/-- The star of an opening bracket closes nothing, and an inner comment is closed first. -/
theorem next?_comment_nested :
    let comment := "(*)\n(**)*)".toList
    IsComment comment ∧
      Lexer.next? ⟨"x(*)\n(**)*)y", comment ++ ['y'], ⟨1, 2⟩, false⟩ =
        Lexer.next? ⟨"x(*)\n(**)*)y", ['y'], ⟨2, 7⟩, false⟩ ∧
      (¬∃ comment, IsComment comment ∧ comment <+: "(*(**)".toList) ∧
      Lexer.next? ⟨"(*(**)", "(*(**)".toList, .start, false⟩ =
        some (.fault ⟨.start, .unterminated "comment" ["*)"]⟩, ⟨"(*(**)", [], ⟨1, 7⟩, false⟩) := by
  intro comment
  have hcomment : IsComment comment :=
    ⟨_, .char (by decide) (by decide) (.char (by decide) (by decide)
      (@Closes.nested ['*', ')'] _ .bracket .bracket)), rfl⟩
  obtain ⟨-, hclosed, -⟩ := next?_comment "x(*)\n(**)*)y" ['x'] ")\n(**)*)y".toList
  obtain ⟨hiff, -, hunclosed⟩ := next?_comment "(*(**)" [] "(**)".toList
  have hopen : ¬∃ comment, IsComment comment ∧ comment <+: "(*(**)".toList := by
    intro hcomment
    obtain ⟨comment, behind, hcut⟩ := hiff.2 hcomment
    cases hcut
  exact ⟨hcomment, (hclosed comment ['y'] hcomment rfl).2.2, hopen, (hunclosed hopen).2.1⟩

end ModSyntax
