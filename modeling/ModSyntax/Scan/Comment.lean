/-!
# Comments

A comment stands between `(*` and `*)` and may hold comments. `afterComment` walks over the text
behind an opening and counts the openings that are still to be closed.
-/

namespace ModSyntax

/-- The text behind the comment around `text`, with `inner` more comments open inside it; `none` if
the text ends before the comment does. -/
def afterComment (inner : Nat) (text : List Char) : Option (List Char) :=
  match inner, text with
  | _, [] => none
  | n, '(' :: '*' :: rest => afterComment (n + 1) rest
  | 0, '*' :: ')' :: rest => some rest
  | n + 1, '*' :: ')' :: rest => afterComment n rest
  | n, _ :: rest => afterComment n rest

/-- What stands behind a comment is the end of the text that held it. -/
theorem afterComment_suffix {inner : Nat} {text rest : List Char}
    (h : afterComment inner text = some rest) : rest <:+ text := by
  fun_induction afterComment inner text with
  | case1 => simp at h
  | case2 n text ih => exact (ih h).trans ((List.suffix_cons _ _).trans (List.suffix_cons _ _))
  | case3 text =>
    cases h
    exact (List.suffix_cons _ _).trans (List.suffix_cons _ _)
  | case4 n text ih => exact (ih h).trans ((List.suffix_cons _ _).trans (List.suffix_cons _ _))
  | case5 n c text _ _ _ ih => exact (ih h).trans (List.suffix_cons _ _)

end ModSyntax
