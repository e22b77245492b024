import Mathlib.Algebra.Ring.Nat
import ModSyntax.Proofs.MissingSemicolon
import ModSyntax.Proofs.Reading.Literals
import ModSyntax.Proofs.Scan.Digits

/-!
# Literals at the limit of their range

A literal of a module without diagnostics may be replaced by any digits. Up to the greatest 64-bit
value they give the module with their value in its place. Beyond it they are the one diagnostic, and
the module lacks the statement or the constant that has the literal in an expression of its own
(`parseSource_literal`).
-/

namespace ModSyntax

/-! ## The value of digits -/

section

variable {digits : String} (hne : digits.toList ≠ [])
  (hdigits : ∀ c ∈ digits.toList, c.isDigit = true)
include hne hdigits

theorem literalValue?_digits :
    literalValue? digits = inInt64? (Nat.ofDigitChars 10 digits.toList 0) := by
  rw [literalValue?_of_digits hdigits, naturalValue?,
    if_pos ⟨hne, List.all_eq_true.2 hdigits⟩]
  rfl

/-- Digits up to the greatest value stand for their value. -/
theorem literalValue?_of_le (h : Nat.ofDigitChars 10 digits.toList 0 ≤ 2 ^ 63 - 1) :
    ∃ value, literalValue? digits = some value ∧
      value.toInt = Nat.ofDigitChars 10 digits.toList 0 := by
  have hrange : Int64.minValue.toInt ≤ (Nat.ofDigitChars 10 digits.toList 0 : Int) ∧
      (Nat.ofDigitChars 10 digits.toList 0 : Int) ≤ Int64.maxValue.toInt := by
    simp only [Int64.toInt_minValue, Int64.toInt_maxValue]
    omega
  rw [literalValue?_digits hne hdigits, inInt64?, dif_pos hrange]
  exact ⟨_, rfl, Int64.toInt_ofIntLE⟩

/-- Digits beyond it stand for nothing. -/
theorem literalValue?_of_lt (h : 2 ^ 63 - 1 < Nat.ofDigitChars 10 digits.toList 0) :
    literalValue? digits = none := by
  rw [literalValue?_digits hne hdigits, inInt64?, dif_neg]
  simp only [Int64.toInt_minValue, Int64.toInt_maxValue]
  omega

end

/-! ## Tokens -/

/-- What the parser does with another literal in a sentence. -/
theorem Sentence.run_literal {before after : List Symbol} {l : String} {m : Module}
    (h : Sentence (before ++ ⟨.integer, l⟩ :: after) m) :
    ∃ fill without, LiteralPlace m.Holds m.Declares fill without ∧
      (∀ l value, literalValue? l = some value →
        Sentence (before ++ ⟨.integer, l⟩ :: after) (fill value)) ∧
      ∀ l, literalValue? l = none →
        Rule.compilationUnit.run (.start (before ++ ⟨.integer, l⟩ :: after)) =
          ⟨without, ⟨[], (before ++ ⟨.integer, l⟩ :: after).length⟩,
            [⟨before.length, .outOfRange l⟩]⟩ := by
  obtain ⟨fill, without, hplace, hsome, hnone⟩ := Rule.swapsPhrase_of_derives h before l after rfl
  refine ⟨fill, without, hplace, hsome, fun l hl => ?_⟩
  have hrun := hnone l hl 0 [] (by simp)
  rw [List.append_nil, Nat.zero_add, Nat.zero_add] at hrun
  rw [Cursor.start, hrun]

/-- Another literal among tokens without diagnostics, at the same place. -/
theorem parseTokens_swap {before after : List Token} {t : Token} {m : Module}
    (hbefore : ∀ u ∈ before, u.kind ≠ .eof) (ht : t.kind = .integer)
    (h : parseTokens (before ++ t :: after) = (m, [])) :
    ∃ fill without, LiteralPlace m.Holds m.Declares fill without ∧
      ∀ l after', after'.map Token.toSymbol = after.map Token.toSymbol →
        (∀ value, literalValue? l = some value →
          parseTokens (before ++ ⟨⟨.integer, l⟩, t.position⟩ :: after') = (fill value, [])) ∧
        (literalValue? l = none →
          parseTokens (before ++ ⟨⟨.integer, l⟩, t.position⟩ :: after') =
            (without, [⟨t.position, .outOfRange l⟩])) := by
  have hsymbols (l : String) (place : Position) (rest : List Token) :
      (TokenStream.ofTokens (before ++ ⟨⟨.integer, l⟩, place⟩ :: rest)).symbols =
        before.map Token.toSymbol ++ ⟨.integer, l⟩ :: (TokenStream.ofTokens rest).symbols := by
    rw [TokenStream.symbols_append hbefore]
    rfl
  obtain ⟨⟨k, l⟩, place⟩ := t
  obtain rfl : k = .integer := ht
  have hm := Sentence.of_parseTokens h
  rw [hsymbols] at hm
  obtain ⟨fill, without, hplace, hsome, hnone⟩ := hm.run_literal
  refine ⟨fill, without, hplace, fun l after' hafter => ⟨fun value hl => ?_, fun hl => ?_⟩⟩
  · have hrun := (hsome l value hl).run_eq
    rw [← TokenStream.symbols_ofTokens_congr hafter, ← hsymbols l place] at hrun
    have hparse : (TokenStream.ofTokens (before ++ ⟨⟨.integer, l⟩, place⟩ :: after')).parse =
        (fill value, []) := by
      rw [TokenStream.parse, hrun]
      rfl
    exact parseTokens_eq_of_parse hparse (Nat.zero_le 1)
  · have hrun := hnone l hl
    rw [← TokenStream.symbols_ofTokens_congr hafter, ← hsymbols l place, List.length_map] at hrun
    have hparse : (TokenStream.ofTokens (before ++ ⟨⟨.integer, l⟩, place⟩ :: after')).parse =
        (without, [⟨before.length, .outOfRange l⟩]) := by
      rw [TokenStream.parse, hrun]
      rfl
    exact parseTokens_eq_of_report hbefore Kind.noConfusion hparse

/-! ## Texts -/

theorem parseSource_of_faultless {source : String} (h : (tokenize source).2 = []) :
    parseSource source = parseTokens (tokenize source).1 := by
  rw [parseSource_eq, h, List.nil_append]
  rfl

theorem faults_eq_nil_of_parseSource {source : String} (h : (parseSource source).2 = []) :
    (tokenize source).2 = [] := by
  rw [parseSource_eq] at h
  exact (List.append_eq_nil_iff.1 (Diagnostic.inSourceOrder_eq_nil_iff.1 h)).1

/-- Any digits may stand in the place of a literal of a text without diagnostics, in the text or
among its tokens. If their value is at most the greatest 64-bit value, there are no diagnostics, and
the module has this value in the place of the literal. Otherwise they are the one diagnostic, and
the module lacks the statement or constant that owns the literal. -/
theorem parseSource_literal (source : String) (m : Module) (before after : List Token) (t : Token)
    (h : parseSource source = (m, [])) (htokens : (tokenize source).1 = before ++ t :: after)
    (ht : t.kind = .integer) :
    ∃ (front back : List Char) (fill : Int64 → Module) (without : Module),
      source.toList = front ++ (t.lexeme.toList ++ back) ∧ t.position = .behind front ∧
      LiteralPlace m.Holds m.Declares fill without ∧
      ∀ digits : String, digits.toList ≠ [] → (∀ c ∈ digits.toList, c.isDigit = true) →
        let text := String.ofList (front ++ (digits.toList ++ back))
        let tokens := before ++ ⟨⟨.integer, digits⟩, t.position⟩ :: after
        (Nat.ofDigitChars 10 digits.toList 0 ≤ 2 ^ 63 - 1 → ∃ value : Int64,
          value.toInt = Nat.ofDigitChars 10 digits.toList 0 ∧
          parseSource text = (fill value, []) ∧ parseTokens tokens = (fill value, [])) ∧
        (2 ^ 63 - 1 < Nat.ofDigitChars 10 digits.toList 0 →
          parseSource text = (without, [⟨t.position, .outOfRange digits⟩]) ∧
          parseTokens tokens = (without, [⟨t.position, .outOfRange digits⟩])) := by
  have hfaults := faults_eq_nil_of_parseSource (congrArg Prod.snd h)
  obtain ⟨front, back, hsource, hplace, hbefore, hscan⟩ := tokenize_digits hfaults htokens ht
  rw [parseSource_of_faultless hfaults, htokens] at h
  obtain ⟨fill, without, hliteral, hparse⟩ := parseTokens_swap hbefore ht h
  refine ⟨front, back, fill, without, hsource, hplace, hliteral, fun digits hne hdigits => ?_⟩
  obtain ⟨after', hafter, hscan⟩ := hscan digits hne hdigits
  have htext : parseSource (String.ofList (front ++ (digits.toList ++ back))) =
      parseTokens (before ++ ⟨⟨.integer, digits⟩, t.position⟩ :: after') := by
    rw [parseSource_of_faultless (by rw [hscan]), hscan]
  refine ⟨fun hle => ?_, fun hlt => ?_⟩
  · obtain ⟨value, hvalue, heq⟩ := literalValue?_of_le hne hdigits hle
    exact ⟨value, heq, htext.trans ((hparse digits after' hafter).1 value hvalue),
      (hparse digits after rfl).1 value hvalue⟩
  · have hvalue := literalValue?_of_lt hne hdigits hlt
    exact ⟨htext.trans ((hparse digits after' hafter).2 hvalue), (hparse digits after rfl).2 hvalue⟩

/-- The literal stands in the condition of an alternative, in a loop. The greatest value is written
with leading zeros; the next one costs the alternative with its body, and not the loop. -/
theorem parseSource_literal_condition :
    let source := "MODULE M; CONST c = 7; BEGIN WHILE a DO IF b = 2 THEN x := 3 END; y END END M."
    let t : Token := ⟨⟨.integer, "2"⟩, ⟨1, 48⟩⟩
    let before := (tokenize source).1.take 15
    let after := (tokenize source).1.drop 16
    let simple (f : Factor) : SimpleExpr := ⟨none, ⟨f, []⟩, []⟩
    let module (body : List Statement) : Module :=
      ⟨"M", [], ⟨[.constant "c" (.simple (simple (.int 7)))],
        [.loop (.simple (simple (.ref ⟨["a"]⟩))) (body ++ [.bare ⟨["y"]⟩])]⟩, "M"⟩
    let branch (value : Int64) : Statement :=
      .branch (.compare .equal (simple (.ref ⟨["b"]⟩)) (simple (.int value)))
        [.assign ⟨["x"]⟩ (.simple (simple (.int 3)))] none
    let great := "0009223372036854775807"
    let greater := "9223372036854775808"
    parseSource source = (module [branch 2], []) ∧
      (tokenize source).1 = before ++ t :: after ∧
      ∃ (front back : List Char) (fill : Int64 → Module),
        source.toList = front ++ ("2".toList ++ back) ∧
        LiteralPlace (module [branch 2]).Holds (module [branch 2]).Declares fill (module []) ∧
        parseSource (String.ofList (front ++ (great.toList ++ back))) =
          (module [branch Int64.maxValue], []) ∧
        parseSource (String.ofList (front ++ (greater.toList ++ back))) =
          (module [], [⟨⟨1, 48⟩, .outOfRange greater⟩]) := by
  intro source t before after simple module branch great greater
  have h : parseSource source = (module [branch 2], []) := by decide +kernel
  have htokens : (tokenize source).1 = before ++ t :: after := by decide +kernel
  obtain ⟨front, back, fill, without, hsource, -, hplace, hdigits⟩ :=
    parseSource_literal source (module [branch 2]) before after t h htokens rfl
  obtain ⟨value, -, hgreat, hfill⟩ :=
    (hdigits great (by decide) (List.all_eq_true.1 (by decide))).1 (by decide)
  obtain ⟨hgreater, hwithout⟩ :=
    (hdigits greater (by decide) (List.all_eq_true.1 (by decide))).2 (by decide)
  have hmax : parseTokens (before ++ ⟨⟨.integer, great⟩, t.position⟩ :: after) =
      (module [branch Int64.maxValue], []) := by decide +kernel
  have hlost : (parseTokens (before ++ ⟨⟨.integer, greater⟩, t.position⟩ :: after)).1 =
      module [] := by decide +kernel
  rw [hmax] at hfill
  rw [← hfill] at hgreat
  rw [hwithout] at hlost
  have hlost : without = module [] := hlost
  rw [hlost] at hplace hgreater
  exact ⟨h, htokens, front, back, fill, hsource, hplace, hgreat, hgreater⟩

end ModSyntax
