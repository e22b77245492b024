import ModSyntax.Proofs.Scan.Separated

/-!
# Where pieces end

Every text is made of the pieces that it is cut into (`Piece.exists_cuts`). A symbol is taken as
long as it lasts: the text behind it does not go on with it (`Symbol.ends_of_first`). So the same
pieces are cut off in front of any other text that goes on with none of them (`Piece.Cuts.before`).
Only a comment that is not closed takes what follows it.
-/

namespace ModSyntax

namespace Symbol

open Piece

/-- Whether a symbol goes on with a character is decided by its kind. -/
theorem ends_congr {s t : Symbol} (h : s.kind = t.kind) {next : List Char} :
    s.Ends next ↔ t.Ends next := by
  simp only [Ends, Fuses, h]

/-- A mark of one character goes on with what makes a mark of two, or opens a comment. -/
theorem doubleMark?_of_fuses {c d : Char} {k : Kind} (hk : markOf? c = some k)
    (h : (ofKind k).Fuses d = true) : (doubleMark? c d).isSome ∨ c = '(' ∧ d = '*' := by
  fun_cases markOf? c with
  | case15 => simp_all [markOf?]
  | _ =>
    obtain rfl := Option.some.inj hk
    simp_all [Fuses, ofKind, Kind.isKeyword, Kind.keywords, doubleMark?]

theorem fuses_doubleMark? {c d : Char} {k : Kind} (hk : doubleMark? c d = some k) (next : Char) :
    (ofKind k).Fuses next = false := by
  fun_cases doubleMark? c d with
  | case4 => simp_all [doubleMark?]
  | _ =>
    obtain rfl := Option.some.inj hk
    rfl

theorem ends_ofWord (word rest : List Char) :
    Ends ⟨(Kind.keyword? (String.ofList word)).getD .identifier, String.ofList word⟩
      (rest.dropWhile isWordPart) := by
  intro d hd
  have hd : isWordPart d = false := by
    have := List.head?_dropWhile_not isWordPart rest
    rwa [Option.mem_def.1 hd] at this
  cases hkey : Kind.keyword? (String.ofList word) with
  | none => exact hd
  | some k => exact (fuses_keyword k (List.mem_of_find?_eq_some hkey) d).trans hd

theorem ends_digits (l : String) (rest : List Char) :
    Ends ⟨.integer, l⟩ (rest.dropWhile Char.isDigit) := by
  intro d hd
  have := List.head?_dropWhile_not Char.isDigit rest
  rwa [Option.mem_def.1 hd] at this

theorem ends_of_ofMark {c : Char} {rest text next : List Char} {k : Kind}
    (hcomment : ∀ body, c = '(' → rest ≠ '*' :: body)
    (h : ofMark c rest = (.symbol k text, next)) : Ends ⟨k, String.ofList text⟩ next := by
  rcases ofMark_cases c rest with ⟨d, behind, k', -, hk, heq⟩ | ⟨hnone, heq⟩
  · obtain ⟨hpiece, rfl⟩ := Prod.mk.inj (heq.symm.trans h)
    obtain ⟨rfl, rfl⟩ := Piece.symbol.inj hpiece
    exact fun next _ => fuses_doubleMark? hk next
  · obtain ⟨hpiece, rfl⟩ := Prod.mk.inj (heq.symm.trans h)
    unfold ofChar at hpiece
    split at hpiece
    · next k' hk =>
      obtain ⟨rfl, rfl⟩ := Piece.symbol.inj hpiece
      intro d hd
      refine Bool.eq_false_iff.2 fun hfuses => ?_
      rcases doubleMark?_of_fuses hk hfuses with hsome | ⟨rfl, rfl⟩
      · simp [hnone d hd] at hsome
      · obtain ⟨body, hbody⟩ := List.head?_eq_some_iff.1 hd
        exact hcomment body rfl hbody
    · cases hpiece

/-- The text behind a symbol that is cut off does not go on with it. -/
theorem ends_of_first {c : Char} {rest text next : List Char} {k : Kind}
    (h : first c rest = (.symbol k text, next)) : Ends ⟨k, String.ofList text⟩ next := by
  revert h
  fun_cases first c rest with
  | case1 => rintro ⟨⟩
  | case2 =>
    rintro ⟨⟩
    exact ends_ofWord _ rest
  | case3 =>
    rintro ⟨⟩
    exact ends_digits _ rest
  | case4 body =>
    unfold ofComment
    split <;> rintro ⟨⟩
  | case5 _ _ hcomment => exact ends_of_ofMark hcomment

end Symbol

namespace Piece

/-- What is cut off is a separator, a symbol, or a comment that is not closed. -/
theorem separates_of_first (c : Char) (rest : List Char) :
    (first c rest).1.Separates ∨ (∃ k text, (first c rest).1 = .symbol k text) ∨
      ∃ text, (first c rest).1 = .unclosed text := by
  fun_cases first c rest with
  | case1 _ _ hblank => exact .inl (.blank hblank)
  | case2 => exact .inr (.inl ⟨_, _, rfl⟩)
  | case3 => exact .inr (.inl ⟨_, _, rfl⟩)
  | case4 body =>
    unfold ofComment
    split
    · next behind hafter =>
      obtain ⟨inner, hinner, rfl⟩ := afterComment_eq_some_iff.1 hafter
      exact .inl (by simpa using Separates.comment hinner)
    · exact .inr (.inr ⟨_, rfl⟩)
  | case5 =>
    have hchar : (ofChar c).Separates ∨ ∃ k text, ofChar c = .symbol k text := by
      unfold ofChar
      split
      · exact .inr ⟨_, _, rfl⟩
      · next hmark => exact .inl (.unknown (isStray_iff.2 (by simp_all)))
    rcases ofMark_cases c rest with ⟨d, behind, k, -, -, h⟩ | ⟨-, h⟩ <;> rw [h]
    · exact .inr (.inl ⟨_, _, rfl⟩)
    · exact hchar.imp_right .inl

/-- A piece is cut off in front of another text, too, unless that goes on with it. -/
theorem CutsOff.before {p : Piece} {next next' : List Char} (h : p.CutsOff next)
    (hclosed : ∀ text, p ≠ .unclosed text) (hends : ∀ s : Symbol, s.Ends next → s.Ends next') :
    p.CutsOff next' := by
  obtain ⟨c, rest, -, hfirst⟩ := h
  have hpiece : (first c rest).1 = p := by rw [hfirst]
  rcases hpiece ▸ separates_of_first c rest with hsep | ⟨k, text, rfl⟩ | ⟨text, rfl⟩
  · exact hsep.cutsOff next'
  · have hwritten := Symbol.written_of_first hpiece
    have hcut := hwritten.first_eq (hends _ (Symbol.ends_of_first hfirst))
    simpa [CutsOff] using hcut
  · exact absurd rfl (hclosed text)

theorem CutsOff.text_ne_nil {p : Piece} {next : List Char} (h : p.CutsOff next) : p.text ≠ [] := by
  obtain ⟨c, rest, -, hfirst⟩ := h
  have := text_first_ne_nil c rest
  rwa [hfirst] at this

/-- The same pieces are cut off in front of another text, unless that goes on with the last. -/
theorem Cuts.before {ps : List Piece} {next next' : List Char} (h : Cuts ps next)
    (hclosed : ∀ p ∈ ps, ∀ text, p ≠ .unclosed text)
    (hends : ∀ s : Symbol, s.Ends next → s.Ends next') : Cuts ps next' := by
  induction ps with
  | nil => trivial
  | cons p ps ih =>
    obtain ⟨hp, hps⟩ := h
    obtain ⟨hclosed, hcloseds⟩ := List.forall_mem_cons.1 hclosed
    refine ⟨hp.before hclosed ?_, ih hps hcloseds⟩
    cases ps with
    | nil => exact hends
    | cons q qs =>
      have hq := hps.1.text_ne_nil
      simp [Symbol.Ends, List.head?_append_of_ne_nil _ hq]

/-- Every text is cut into pieces. -/
theorem exists_cuts (text : List Char) : ∃ ps, textOf ps = text ∧ Cuts ps [] := by
  match text with
  | [] => exact ⟨[], rfl, trivial⟩
  | c :: rest =>
    obtain ⟨ps, htext, hcuts⟩ := exists_cuts (first c rest).2
    have hfirst := text_first c rest
    refine ⟨(first c rest).1 :: ps, by rw [textOf_cons, htext, hfirst], ⟨c, rest, ?_, ?_⟩, hcuts⟩
    · rw [htext, List.append_nil, hfirst]
    · rw [htext, List.append_nil]
termination_by text.length
decreasing_by exact length_first_lt c rest

end Piece

end ModSyntax
