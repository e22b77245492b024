/-!
# Integer literals

A literal is a run of decimal digits, with at most one sign before them, that stands for a 64-bit
value. Literals beyond that range stand for nothing.
-/

namespace ModSyntax

/-- The value of one or more decimal digits. -/
def naturalValue? (digits : List Char) : Option Nat :=
  if digits ≠ [] ∧ digits.all Char.isDigit then some (Nat.ofDigitChars 10 digits 0) else none

/-- The integer as a 64-bit value, if it is in range. -/
def inInt64? (n : Int) : Option Int64 :=
  if h : Int64.minValue.toInt ≤ n ∧ n ≤ Int64.maxValue.toInt then some (.ofIntLE n h.1 h.2)
  else none

theorem inInt64?_toInt (value : Int64) : inInt64? value.toInt = some value := by
  rw [inInt64?, dif_pos ⟨value.minValue_le_toInt, value.toInt_le⟩]
  exact congrArg some (Int64.toInt_inj.1 Int64.toInt_ofIntLE)

theorem toInt_of_inInt64? {n : Int} {value : Int64} (h : inInt64? n = some value) :
    value.toInt = n := by
  rw [inInt64?] at h
  split at h
  · obtain rfl := Option.some.inj h
    exact Int64.toInt_ofIntLE
  · cases h

/-- The value that the characters of a literal stand for. -/
def literalValue? (lexeme : String) : Option Int64 :=
  match lexeme.toList with
  | '-' :: digits => (naturalValue? digits).bind fun n => inInt64? (-n)
  | '+' :: digits => (naturalValue? digits).bind fun n => inInt64? n
  | digits => (naturalValue? digits).bind fun n => inInt64? n

theorem literalValue?_of_digits {lexeme : String} (h : ∀ c ∈ lexeme.toList, c.isDigit = true) :
    literalValue? lexeme = (naturalValue? lexeme.toList).bind fun n => inInt64? n := by
  unfold literalValue?
  split
  · next heq => exact absurd (h '-' (heq ▸ .head _)) (by decide)
  · next heq => exact absurd (h '+' (heq ▸ .head _)) (by decide)
  · rfl

end ModSyntax
