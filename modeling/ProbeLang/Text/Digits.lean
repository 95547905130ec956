/-!
# Digits

The digits of a notation with a radix of up to 36 are the ten decimal digits and behind them the
letters. A letter counts in either case when it is read and is written in lower case; reading what
has been written gives the same number (`digitRank?_digitChar`).
-/

namespace ProbeLang.Text

/-- The digit of a number below 36. -/
def digitChar (n : Nat) : Char :=
  if n < 10 then Char.ofNat ('0'.toNat + n) else Char.ofNat ('a'.toNat + (n - 10))

/-- The number below 36 of which a character is the digit. -/
def digitRank? (c : Char) : Option Nat :=
  let lower := c.toLower
  if c.isDigit then some (c.toNat - '0'.toNat)
  else if 'a' ≤ lower && lower ≤ 'z' then some (lower.toNat - 'a'.toNat + 10)
  else none

/-- A digit is read as the number that it was written for. -/
theorem digitRank?_digitChar : ∀ n < 36, digitRank? (digitChar n) = some n := by
  decide

/-- The value of a digit in the notation of a radix. -/
def digitValue? (radix : Nat) (c : Char) : Option Nat :=
  (digitRank? c).filter (· < radix)

/-- The number that digits write in the notation of a radix. -/
def ofDigits? (radix : Nat) (digits : List Char) : Option Nat := do
  let values ← digits.mapM (digitValue? radix)
  return values.foldl (fun n d => radix * n + d) 0

/-- The value of a run of decimal digits. -/
def decimalValue (digits : List Char) : Nat :=
  digits.foldl (fun n d => 10 * n + (d.toNat - '0'.toNat)) 0

/-- The character whose number is written in hexadecimal digits. -/
def hexChar? (digits : List Char) : Option Char :=
  (ofDigits? 16 digits).bind fun n => if n.isValidChar then some (Char.ofNat n) else none

end ProbeLang.Text
