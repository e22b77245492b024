import ModSyntax.Scan.Piece

/-!
# Nested comments

`Closes` is the grammar of what stands behind the opening of a comment: characters and whole
comments up to the closing bracket. Counting the openings follows this grammar
(`afterComment_eq_some_iff`).
-/

namespace ModSyntax

/-- The rest of a comment behind its opening: its body, which may hold whole comments, and its
closing bracket. A character of the body begins neither an opening nor a closing bracket. -/
inductive Closes : List Char → Prop where
  | bracket : Closes ['*', ')']
  | nested {inner rest : List Char} :
      Closes inner → Closes rest → Closes ('(' :: '*' :: (inner ++ rest))
  | char {c : Char} {rest : List Char} :
      (c = '(' → rest.head? ≠ some '*') → (c = '*' → rest.head? ≠ some ')') →
      Closes rest → Closes (c :: rest)

theorem Closes.head?_append {body : List Char} (h : Closes body) (rest : List Char) :
    (body ++ rest).head? = body.head? := by
  cases h <;> rfl

/-- A character that begins no bracket is passed over. -/
theorem afterComment_char {c : Char} {text : List Char} (hopen : c = '(' → text.head? ≠ some '*')
    (hclose : c = '*' → text.head? ≠ some ')') (inner : Nat) :
    afterComment inner (c :: text) = afterComment inner text := by
  rw [afterComment.eq_def]
  split
  · next h => cases h
  · next rest h =>
    obtain ⟨rfl, rfl⟩ := List.cons.inj h
    exact absurd rfl (hopen rfl)
  · next rest h =>
    obtain ⟨rfl, rfl⟩ := List.cons.inj h
    exact absurd rfl (hclose rfl)
  · next n rest h =>
    obtain ⟨rfl, rfl⟩ := List.cons.inj h
    exact absurd rfl (hclose rfl)
  · next h =>
    obtain ⟨-, rfl⟩ := List.cons.inj h
    rfl

/-- The inner comments are closed first. -/
theorem afterComment_add (inner outer : Nat) (text : List Char) :
    afterComment (inner + outer + 1) text =
      (afterComment inner text).bind (afterComment outer) := by
  fun_induction afterComment inner text with
  | case1 => rfl
  | case2 n rest ih =>
    rw [← ih, afterComment]
    congr 1
    omega
  | case3 rest => simp [afterComment]
  | case4 n rest ih =>
    rw [← ih, show n + 1 + outer + 1 = n + outer + 1 + 1 by omega, afterComment]
  | case5 n c rest hopen hlast hclose ih =>
    rw [← ih, afterComment_char]
    · rintro rfl h
      obtain ⟨text, rfl⟩ := List.head?_eq_some_iff.1 h
      exact hopen text rfl rfl
    · rintro rfl h
      obtain ⟨text, rfl⟩ := List.head?_eq_some_iff.1 h
      cases n with
      | zero => exact hlast text rfl rfl rfl
      | succ n => exact hclose n text rfl rfl rfl

/-- Counting the openings finds the end of a comment. -/
theorem Closes.afterComment_eq {body : List Char} (h : Closes body) (rest : List Char) :
    afterComment 0 (body ++ rest) = some rest := by
  induction h generalizing rest with
  | bracket => rfl
  | @nested inner outer _ _ ihinner ihouter =>
    simp only [List.cons_append, List.append_assoc]
    rw [afterComment, afterComment_add 0 0, ihinner, Option.bind_some, ihouter]
  | @char c body hopen hclose hbody ih =>
    rw [List.cons_append, afterComment_char (by rwa [hbody.head?_append])
      (by rwa [hbody.head?_append]), ih]

/-- Where counting the openings ends, a comment ends. -/
theorem closes_of_afterComment {text rest : List Char} (h : afterComment 0 text = some rest) :
    ∃ body, Closes body ∧ text = body ++ rest := by
  match text with
  | [] => simp [afterComment] at h
  | c :: text =>
    by_cases hopen : c = '(' ∧ text.head? = some '*'
    · obtain ⟨rfl, hhead⟩ := hopen
      obtain ⟨text, rfl⟩ := List.head?_eq_some_iff.1 hhead
      rw [afterComment, afterComment_add 0 0] at h
      obtain ⟨mid, hinner, houter⟩ := Option.bind_eq_some_iff.1 h
      have hlt : mid.length < ('(' :: '*' :: text).length := by
        have := (afterComment_suffix hinner).length_le
        simp
        omega
      obtain ⟨inner, hclosesInner, rfl⟩ := closes_of_afterComment hinner
      obtain ⟨outer, hclosesOuter, rfl⟩ := closes_of_afterComment houter
      exact ⟨_, .nested hclosesInner hclosesOuter, by simp⟩
    · by_cases hclose : c = '*' ∧ text.head? = some ')'
      · obtain ⟨rfl, hhead⟩ := hclose
        obtain ⟨text, rfl⟩ := List.head?_eq_some_iff.1 hhead
        obtain rfl : text = rest := by simpa [afterComment] using h
        exact ⟨_, .bracket, rfl⟩
      · rw [afterComment_char (by grind) (by grind)] at h
        obtain ⟨body, hcloses, rfl⟩ := closes_of_afterComment h
        rw [hcloses.head?_append] at hopen hclose
        exact ⟨c :: body, .char (by grind) (by grind) hcloses, rfl⟩
termination_by text.length

/-- A comment ends where its openings and closings balance. -/
theorem afterComment_eq_some_iff {text rest : List Char} :
    afterComment 0 text = some rest ↔ ∃ body, Closes body ∧ text = body ++ rest := by
  refine ⟨closes_of_afterComment, ?_⟩
  rintro ⟨body, hbody, rfl⟩
  exact hbody.afterComment_eq rest

end ModSyntax
