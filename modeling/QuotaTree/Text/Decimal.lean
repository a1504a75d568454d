/-
Reading an unsigned decimal number that has to fit a bound.  A plus sign may
stand in front; the first offending character decides which error is given.
-/
namespace QuotaTree.Text

/-- Why a text is not a number in range. -/
inductive DecimalError where
  | empty
  | invalidDigit
  | tooLarge
  deriving DecidableEq, Repr

def DecimalError.message : DecimalError → String
  | .empty => "cannot parse integer from empty string"
  | .invalidDigit => "invalid digit found in string"
  | .tooLarge => "number too large to fit in target type"

/-- The value of a digit. -/
def digitValue (digit : Char) : Nat :=
  digit.toNat - '0'.toNat

/-- Read digits from the left, with the value of those already read. -/
def readDigits (bound : Nat) : Nat → List Char → Except DecimalError Nat
  | value, [] => .ok value
  | value, digit :: rest =>
    if digit.isDigit then
      let next := value * 10 + digitValue digit
      if next ≤ bound then readDigits bound next rest else .error .tooLarge
    else .error .invalidDigit

/-- Read a number that is at most `bound`. -/
def readNat (bound : Nat) : List Char → Except DecimalError Nat
  | [] => .error .empty
  | ['+'] => .error .invalidDigit
  | '+' :: rest => readDigits bound 0 rest
  | chars => readDigits bound 0 chars

theorem readDigits_le {bound value result : Nat} {chars : List Char}
    (start : value ≤ bound) (h : readDigits bound value chars = .ok result) :
    result ≤ bound := by
  induction chars generalizing value with
  | nil => simp_all [readDigits]
  | cons digit rest ih =>
    simp only [readDigits] at h
    split at h
    · split at h
      · exact ih ‹_› h
      · simp at h
    · simp at h

/-- A number that is read lies within the bound. -/
theorem readNat_le {bound result : Nat} {chars : List Char}
    (h : readNat bound chars = .ok result) : result ≤ bound := by
  unfold readNat at h
  split at h
  · simp at h
  · simp at h
  · exact readDigits_le (Nat.zero_le _) h
  · exact readDigits_le (Nat.zero_le _) h

namespace DecimalExamples

example : readNat 255 "+0255".toList = .ok 255 := by rfl
example : readNat 255 "256x".toList = .error .tooLarge := by rfl
example : readNat 255 "25x6".toList = .error .invalidDigit := by rfl
example : readNat 255 "-".toList = .error .invalidDigit := by rfl

end DecimalExamples

end QuotaTree.Text
