import Mathlib.Computability.Language
import ModSyntax.Proofs.Scan.Separated

/-!
# Identifiers by their pattern and by scanning

That a name is an identifier can be said in three ways: by a look at its characters
(`isIdentifier`), by the pattern `[A-Za-z_][A-Za-z0-9_]*` with the reserved words left out, and by
what scanning makes of the name. All three agree on every string (`isIdentifier_iff_scanned`).
-/

namespace ModSyntax

open scoped Computability

/-! ## The pattern -/

/-- The words of one character that the test accepts. -/
def charClass (p : Char → Prop) : Language Char := {word | ∃ c, p c ∧ word = [c]}

/-- The words of one character from `first` to `last`. -/
def charRange (first last : Char) : Language Char := charClass fun c => first ≤ c ∧ c ≤ last

/-- The pattern `[A-Za-z_][A-Za-z0-9_]*`. -/
def wordPattern : Language Char :=
  (charRange 'A' 'Z' + charRange 'a' 'z' + charClass (· = '_')) *
    (charRange 'A' 'Z' + charRange 'a' 'z' + charRange '0' '9' + charClass (· = '_'))∗

theorem charClass_add (p q : Char → Prop) :
    charClass p + charClass q = charClass fun c => p c ∨ q c := by
  ext word
  constructor
  · rintro (⟨c, hc, rfl⟩ | ⟨c, hc, rfl⟩)
    · exact ⟨c, .inl hc, rfl⟩
    · exact ⟨c, .inr hc, rfl⟩
  · rintro ⟨c, hc | hc, rfl⟩
    · exact .inl ⟨c, hc, rfl⟩
    · exact .inr ⟨c, hc, rfl⟩

/-- Repeating a class gives the words of its characters. -/
theorem mem_kstar_charClass {p : Char → Prop} {word : List Char} :
    word ∈ (charClass p)∗ ↔ ∀ c ∈ word, p c := by
  rw [Language.mem_kstar]
  constructor
  · rintro ⟨words, rfl, hwords⟩ c hc
    obtain ⟨w, hw, hc⟩ := List.mem_flatten.1 hc
    obtain ⟨d, hd, rfl⟩ := hwords w hw
    exact List.mem_singleton.1 hc ▸ hd
  · intro hword
    refine ⟨word.map ([·]), (List.flatMap_singleton' word).symm, fun w hw => ?_⟩
    obtain ⟨c, hc, rfl⟩ := List.mem_map.1 hw
    exact ⟨c, hword c hc, rfl⟩

theorem isWordStart_iff {c : Char} :
    isWordStart c = true ↔ (('A' ≤ c ∧ c ≤ 'Z') ∨ 'a' ≤ c ∧ c ≤ 'z') ∨ c = '_' := by
  delta isWordStart Char.isAlpha Char.isUpper Char.isLower
  simp [Char.le_def]

theorem isWordPart_iff {c : Char} : isWordPart c = true ↔
    ((('A' ≤ c ∧ c ≤ 'Z') ∨ 'a' ≤ c ∧ c ≤ 'z') ∨ '0' ≤ c ∧ c ≤ '9') ∨ c = '_' := by
  delta isWordPart Char.isAlphanum Char.isAlpha Char.isUpper Char.isLower Char.isDigit
  simp [Char.le_def]

/-- The words of the pattern are the runs of word characters. -/
theorem mem_wordPattern {word : List Char} : word ∈ wordPattern ↔ Piece.isWord word = true := by
  simp only [wordPattern, charRange, charClass_add, ← isWordStart_iff, ← isWordPart_iff]
  rw [Language.mem_mul]
  constructor
  · rintro ⟨_, ⟨c, hc, rfl⟩, run, hrun, rfl⟩
    simpa [Piece.isWord, hc] using mem_kstar_charClass.1 hrun
  · intro hword
    cases word with
    | nil => cases hword
    | cons c run =>
      obtain ⟨hc, hrun⟩ : isWordStart c = true ∧ ∀ d ∈ run, isWordPart d = true := by
        simpa [Piece.isWord] using hword
      exact ⟨[c], ⟨c, hc, rfl⟩, run, mem_kstar_charClass.2 hrun, rfl⟩

/-! ## Scanning a name -/

/-- An identifier is scanned as one token, which is the whole of it. -/
theorem tokenize_identifier {name : String} (h : isIdentifier name = true) :
    tokenize name =
      ([⟨.identifier name, .start⟩, .eof (Position.start.after name.toList)], []) := by
  have hcut : Piece.Cuts [.symbol .identifier name.toList] [] :=
    ⟨(Symbol.Written.identifier h).first_eq (Symbol.ends_nil _), trivial⟩
  simpa [Piece.items, Piece.item?, Item.token?, Item.fault?, Symbol.identifier,
    List.filterMap_cons] using hcut.tokenize_items

/-- A name is an identifier exactly if it is a word of the pattern and no reserved word, and exactly
if scanning it finds no fault and nothing but one identifier, which is the whole of the name. -/
theorem isIdentifier_iff_scanned (name : String) :
    (isIdentifier name = true ↔ name.toList ∈ wordPattern ∧ Kind.keyword? name = none) ∧
    (isIdentifier name = true ↔
      ∃ stop, tokenize name = ([⟨.identifier name, .start⟩, .eof stop], [])) := by
  refine ⟨by rw [Piece.isIdentifier_iff, mem_wordPattern], fun h => ⟨_, tokenize_identifier h⟩, ?_⟩
  rintro ⟨stop, hscan⟩
  have hmem : (⟨.identifier name, .start⟩ : Token) ∈ (tokenize name).1 := by simp [hscan]
  exact (written_of_mem_tokenize hmem Kind.noConfusion).isIdentifier

end ModSyntax
