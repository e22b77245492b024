import ModSyntax.Scan.Item

/-!
# Written symbols

`Symbol.Written` says that the characters of a symbol are those of its kind. A written symbol is cut
off a text as it is, unless the character behind it goes on with it (`Symbol.Fuses`); this is
`Symbol.Written.first_eq`. In the other direction, every symbol that scanning finds is written
(`written_of_mem_tokenize`).
-/

namespace ModSyntax

namespace Symbol

/-- The characters are those of the kind: the form of a word or mark, an identifier, or digits. -/
inductive Written : Symbol → Prop where
  | word {k : Kind} : k ∈ Kind.keywords → Written (.ofKind k)
  | mark {k : Kind} : k ∈ Kind.marks → Written (.ofKind k)
  | identifier {n : String} : isIdentifier n = true → Written (.identifier n)
  | digits {l : String} : l.toList ≠ [] → (∀ c ∈ l.toList, c.isDigit = true) →
      Written ⟨.integer, l⟩

theorem Written.kind_ne_eof {s : Symbol} (h : s.Written) : s.kind ≠ .eof := by
  cases h with
  | word hk => exact fun he => absurd (he ▸ hk : Kind.eof ∈ Kind.keywords) (by decide)
  | mark hk => exact fun he => absurd (he ▸ hk : Kind.eof ∈ Kind.marks) (by decide)
  | identifier => exact Kind.noConfusion
  | digits => exact Kind.noConfusion

theorem Written.isIdentifier {l : String} (h : Written ⟨.identifier, l⟩) :
    isIdentifier l = true := by
  generalize hs : (⟨.identifier, l⟩ : Symbol) = s at h
  cases h with
  | word hk =>
    exact absurd ((Symbol.mk.inj hs).1 ▸ hk : Kind.identifier ∈ Kind.keywords) (by decide)
  | mark hk => exact absurd ((Symbol.mk.inj hs).1 ▸ hk : Kind.identifier ∈ Kind.marks) (by decide)
  | identifier hn => exact (Symbol.mk.inj hs).2 ▸ hn
  | digits => cases hs

theorem Written.isDigit {l : String} (h : Written ⟨.integer, l⟩) :
    ∀ c ∈ l.toList, c.isDigit = true := by
  generalize hs : (⟨.integer, l⟩ : Symbol) = s at h
  cases h with
  | word hk => exact absurd ((Symbol.mk.inj hs).1 ▸ hk : Kind.integer ∈ Kind.keywords) (by decide)
  | mark hk => exact absurd ((Symbol.mk.inj hs).1 ▸ hk : Kind.integer ∈ Kind.marks) (by decide)
  | identifier => cases hs
  | digits _ hd => exact (Symbol.mk.inj hs).2 ▸ hd

/-- The character `c` right behind the symbol goes on with it. -/
def Fuses (s : Symbol) (c : Char) : Bool :=
  match s.kind with
  | .identifier => isWordPart c
  | .integer => c.isDigit
  | .colon | .less | .greater => c = '='
  | .lparen => c = '*'
  | k => k.isKeyword && isWordPart c

/-- The text `next` does not go on with the symbol. -/
def Ends (s : Symbol) (next : List Char) : Prop := ∀ c ∈ next.head?, s.Fuses c = false

end Symbol

namespace Piece

theorem isBlank_eq_false {c : Char} (h : isWordPart c = true) : isBlank c = false := by
  refine Bool.eq_false_iff.2 fun hb => ?_
  simp only [isBlank, Bool.or_eq_true, decide_eq_true_eq] at hb
  rcases hb with ((((rfl | rfl) | rfl) | rfl) | rfl) | rfl <;> simp [isWordPart] at h

theorem isWordPart_of_isWordStart {c : Char} (h : isWordStart c = true) : isWordPart c = true := by
  simp only [isWordStart, isWordPart, Char.isAlphanum, Bool.or_eq_true] at h ⊢
  rcases h with h | h
  · exact .inl (.inl h)
  · exact .inr h

theorem isWordPart_of_isDigit {c : Char} (h : c.isDigit = true) : isWordPart c = true := by
  simp [isWordPart, Char.isAlphanum, h]

theorem isWordStart_eq_false {c : Char} (h : c.isDigit = true) : isWordStart c = false := by
  have halpha : c.isAlpha = (decide ('A'.val ≤ c.val ∧ c.val ≤ 'Z'.val) ||
      decide ('a'.val ≤ c.val) && decide (c.val ≤ 'z'.val)) := rfl
  refine Bool.eq_false_iff.2 fun hs => ?_
  simp only [isWordStart, halpha, Char.isDigit, Bool.or_eq_true, Bool.and_eq_true,
    decide_eq_true_eq, ge_iff_le, UInt32.le_iff_toNat_le] at h hs
  rcases hs with (⟨hlo, -⟩ | ⟨hlo, -⟩) | rfl
  · simp at h hlo; omega
  · simp at h hlo; omega
  · simp at h

/-- A run of characters ends where a character is none of its kind. -/
theorem takeWhile_run {p : Char → Bool} {run next : List Char} (hrun : ∀ c ∈ run, p c = true)
    (hnext : ∀ c ∈ next.head?, p c = false) :
    (run ++ next).takeWhile p = run ∧ (run ++ next).dropWhile p = next := by
  rw [List.takeWhile_append_of_pos hrun, List.dropWhile_append_of_pos hrun]
  cases next with
  | nil => simp
  | cons c next => simp [hnext c (by simp)]

/-- One or more word characters that do not begin with a digit. -/
def isWord : List Char → Bool
  | [] => false
  | c :: run => isWordStart c && run.all isWordPart

theorem isIdentifier_iff {name : String} :
    isIdentifier name = true ↔ isWord name.toList = true ∧ Kind.keyword? name = none := by
  cases h : name.toList <;> simp [isIdentifier, isWord, h]

theorem first_word {word next : List Char} (hword : isWord word = true)
    (hnext : ∀ d ∈ next.head?, isWordPart d = false) :
    ∃ c rest, word ++ next = c :: rest ∧ first c rest = (ofWord word, next) := by
  cases word with
  | nil => simp [isWord] at hword
  | cons c run =>
    obtain ⟨hc, hrun⟩ : isWordStart c = true ∧ ∀ d ∈ run, isWordPart d = true := by
      simpa [isWord] using hword
    obtain ⟨htake, hdrop⟩ := takeWhile_run hrun hnext
    have hblank := isBlank_eq_false (isWordPart_of_isWordStart hc)
    refine ⟨c, run ++ next, rfl, ?_⟩
    unfold first
    simp only [hblank, hc, htake, hdrop, Bool.false_eq_true, if_false, if_true]

theorem first_digits {c : Char} {run next : List Char} (hc : c.isDigit = true)
    (hrun : ∀ d ∈ run, d.isDigit = true) (hnext : ∀ d ∈ next.head?, d.isDigit = false) :
    first c (run ++ next) = (symbol .integer (c :: run), next) := by
  obtain ⟨htake, hdrop⟩ := takeWhile_run hrun hnext
  have hblank := isBlank_eq_false (isWordPart_of_isDigit hc)
  have hstart := isWordStart_eq_false hc
  unfold first
  simp only [hblank, hstart, hc, htake, hdrop, Bool.false_eq_true, if_false, if_true]

theorem first_mark {c : Char} {next : List Char} (hblank : isBlank c = false)
    (hstart : isWordStart c = false) (hdigit : c.isDigit = false)
    (hcomment : c = '(' → ∀ d ∈ next.head?, d ≠ '*') : first c next = ofMark c next := by
  unfold first
  simp only [hblank, hstart, hdigit, Bool.false_eq_true, if_false]
  split
  · next body => exact absurd rfl (hcomment rfl '*' (by simp))
  · rfl

/-- The mark that the characters make. -/
def markOfText? : List Char → Option Kind
  | [c] => markOf? c
  | [c, d] => doubleMark? c d
  | _ => none

/-- A character that makes a mark is neither blank nor part of a word. -/
theorem class_of_markOf? {c : Char} {k : Kind} (h : markOf? c = some k) :
    isBlank c = false ∧ isWordStart c = false ∧ c.isDigit = false := by
  fun_cases markOf? c with
  | case15 => simp_all [markOf?]
  | _ => decide

theorem class_of_doubleMark? {c d : Char} {k : Kind} (h : doubleMark? c d = some k) :
    isBlank c = false ∧ isWordStart c = false ∧ c.isDigit = false ∧ c ≠ '(' := by
  fun_cases doubleMark? c d with
  | case4 => simp_all [doubleMark?]
  | _ => decide

end Piece

namespace Symbol

open Piece

theorem keyword?_spelling : ∀ k ∈ Kind.keywords, Kind.keyword? k.spelling = some k := by decide

theorem isWord_spelling : ∀ k ∈ Kind.keywords, isWord k.spelling.toList = true := by decide

theorem fuses_keyword : ∀ k ∈ Kind.keywords, ∀ c, (ofKind k).Fuses c = isWordPart c := by
  intro k hk c
  cases k <;> simp_all [Fuses, ofKind, Kind.isKeyword, Kind.keywords]

theorem markOfText?_spelling : ∀ k ∈ Kind.marks, markOfText? k.spelling.toList = some k := by decide

/-- Where two characters make a mark, the second goes on with the first. -/
theorem fuses_of_doubleMark? {c d : Char} {k k' : Kind} (hk : markOf? c = some k)
    (h : doubleMark? c d = some k') : (ofKind k).Fuses d = true := by
  fun_cases doubleMark? c d with
  | case4 => simp_all [doubleMark?]
  | _ =>
    obtain rfl := Option.some.inj hk
    rfl

/-- A written symbol is cut off the text as it is, unless what follows goes on with it. -/
theorem Written.first_eq {s : Symbol} (h : s.Written) {next : List Char} (hnext : s.Ends next) :
    ∃ c rest, s.lexeme.toList ++ next = c :: rest ∧
      first c rest = (.symbol s.kind s.lexeme.toList, next) := by
  cases h with
  | @word k hk =>
    have hpart (d : Char) (hd : d ∈ next.head?) : isWordPart d = false :=
      fuses_keyword k hk d ▸ hnext d hd
    obtain ⟨c, rest, htext, hfirst⟩ := first_word (isWord_spelling k hk) hpart
    refine ⟨c, rest, htext, ?_⟩
    rw [hfirst, ofWord, String.ofList_toList, keyword?_spelling k hk]
    rfl
  | @identifier n hn =>
    obtain ⟨hword, hkey⟩ := isIdentifier_iff.1 hn
    obtain ⟨c, rest, htext, hfirst⟩ := first_word hword hnext
    refine ⟨c, rest, htext, ?_⟩
    rw [hfirst, ofWord, String.ofList_toList, hkey]
    rfl
  | @digits l hne hl =>
    cases hc : l.toList with
    | nil => exact absurd hc hne
    | cons c run =>
      rw [hc] at hl
      exact ⟨c, run ++ next, rfl,
        first_digits (hl c (by simp)) (fun d hd => hl d (by simp [hd])) hnext⟩
  | @mark k hk =>
    have hmark := markOfText?_spelling k hk
    change ∃ c rest, k.spelling.toList ++ next = c :: rest ∧
      first c rest = (.symbol k k.spelling.toList, next)
    generalize k.spelling.toList = text at hmark ⊢
    fun_cases markOfText? text with
    | case1 c =>
      obtain ⟨hblank, hstart, hdigit⟩ := class_of_markOf? hmark
      have hdouble (d : Char) (hd : d ∈ next.head?) : doubleMark? c d = none := by
        refine Option.eq_none_iff_forall_ne_some.2 fun k' hk' => ?_
        exact Bool.eq_false_iff.1 (hnext d hd) (fuses_of_doubleMark? hmark hk')
      have hcomment (hc : c = '(') (d : Char) (hd : d ∈ next.head?) : d ≠ '*' := by
        rintro rfl
        obtain rfl : Kind.lparen = k := by simpa [hc, markOfText?, markOf?] using hmark
        exact absurd (hnext '*' hd) (by decide)
      refine ⟨c, next, rfl, ?_⟩
      rw [first_mark hblank hstart hdigit hcomment, ofMark_single hdouble, ofChar]
      simp [show markOf? c = some k from hmark]
    | case2 c d =>
      obtain ⟨hblank, hstart, hdigit, hc⟩ := class_of_doubleMark? hmark
      refine ⟨c, d :: next, rfl, ?_⟩
      rw [first_mark hblank hstart hdigit (absurd · hc)]
      exact ofMark_double hmark next
    | case3 => simp_all [markOfText?]

/-! ## Scanned symbols -/

theorem written_ofWord {word : List Char} (h : isWord word = true) :
    Written ⟨(Kind.keyword? (String.ofList word)).getD .identifier, String.ofList word⟩ := by
  cases hkey : Kind.keyword? (String.ofList word) with
  | none => exact .identifier (isIdentifier_iff.2 ⟨by simpa using h, hkey⟩)
  | some k =>
    have hspelling : k.spelling = String.ofList word := by simpa using List.find?_some hkey
    rw [Option.getD_some, ← hspelling]
    exact .word (List.mem_of_find?_eq_some hkey)

theorem written_mark {text : List Char} {k : Kind} (h : markOfText? text = some k) :
    Written ⟨k, String.ofList text⟩ := by
  fun_cases markOfText? text with
  | case1 c =>
    fun_cases markOf? c with
    | case15 => simp_all [markOfText?, markOf?]
    | _ =>
      obtain rfl := Option.some.inj h
      exact .mark (by decide)
  | case2 c d =>
    fun_cases doubleMark? c d with
    | case4 => simp_all [markOfText?, doubleMark?]
    | _ =>
      obtain rfl := Option.some.inj h
      exact .mark (by decide)
  | case3 => simp_all [markOfText?]

theorem written_of_ofMark {c : Char} {rest text : List Char} {k : Kind}
    (h : (ofMark c rest).1 = .symbol k text) : Written ⟨k, String.ofList text⟩ := by
  have hchar (h : ofChar c = .symbol k text) : Written ⟨k, String.ofList text⟩ := by
    unfold ofChar at h
    split at h
    · next k' hk =>
      obtain ⟨rfl, rfl⟩ := Piece.symbol.inj h
      exact written_mark hk
    · cases h
  rcases ofMark_cases c rest with ⟨d, behind, k', -, hk, heq⟩ | ⟨-, heq⟩ <;> rw [heq] at h
  · obtain ⟨rfl, rfl⟩ := Piece.symbol.inj h
    exact written_mark hk
  · exact hchar h

/-- A symbol that is cut off a text is written. -/
theorem written_of_first {c : Char} {rest text : List Char} {k : Kind}
    (h : (first c rest).1 = .symbol k text) : Written ⟨k, String.ofList text⟩ := by
  revert h
  fun_cases first c rest with
  | case1 => rintro ⟨⟩
  | case2 _ _ _ hstart =>
    rintro ⟨⟩
    exact written_ofWord (by simp [isWord, hstart])
  | case3 _ _ _ _ hdigit =>
    rintro ⟨⟩
    refine .digits (by simp) fun d hd => ?_
    rcases List.mem_cons.1 (by simpa using hd) with rfl | hd
    · exact hdigit
    · exact List.all_eq_true.1 List.all_takeWhile d hd
  | case4 body =>
    unfold ofComment
    split <;> rintro ⟨⟩
  | case5 => exact written_of_ofMark

end Symbol

theorem written_of_mem_scanFrom (place : Position) (text : List Char) {t : Token}
    (ht : .token t ∈ scanFrom [] place text) (hk : t.kind ≠ .eof) : t.toSymbol.Written := by
  match text with
  | [] =>
    obtain rfl : t = .eof place := by simpa using ht
    exact absurd rfl hk
  | c :: rest =>
    rw [scanFrom_cons] at ht
    rcases List.mem_append.1 ht with ht | ht
    · cases hpiece : (Piece.first c rest).1 with
      | symbol k text =>
        obtain rfl : t = ⟨⟨k, String.ofList text⟩, place⟩ := by
          simpa [hpiece, Piece.item?] using ht
        exact Symbol.written_of_first hpiece
      | _ => simp [hpiece, Piece.item?] at ht
    · exact written_of_mem_scanFrom _ (Piece.first c rest).2 ht hk
termination_by text.length
decreasing_by exact Piece.length_first_lt c rest

/-- The tokens of a text before its end are written symbols. -/
theorem written_of_mem_tokenize {source : String} {t : Token} (ht : t ∈ (tokenize source).1)
    (hk : t.kind ≠ .eof) : t.toSymbol.Written := by
  obtain ⟨item, hitem, hsome⟩ := List.mem_filterMap.1 ht
  cases item with
  | token t' =>
    obtain rfl := Option.some.inj hsome
    exact written_of_mem_scanFrom .start source.toList hitem hk
  | fault d => cases hsome

end ModSyntax
