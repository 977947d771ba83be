/-!
# Digits

Numbers are written and read one digit at a time, most significant first.
-/

namespace ReactiveReach.Digits

/-- The number that a decimal digit stands for. Only the ten ASCII digits are digits. -/
def value? (c : Char) : Option Nat :=
  if c.isDigit then some (c.toNat - '0'.toNat) else none

/-- The number that a hexadecimal digit stands for, in either case. -/
def hexValue? (c : Char) : Option Nat :=
  if '0' ≤ c ∧ c ≤ '9' then some (c.toNat - '0'.toNat)
  else if 'a' ≤ c ∧ c ≤ 'f' then some (c.toNat - 'a'.toNat + 10)
  else if 'A' ≤ c ∧ c ≤ 'F' then some (c.toNat - 'A'.toNat + 10)
  else none

/-- The last `width` digits of a number in some base, with zeros in front where it has fewer. -/
def inBase (base : Nat) : Nat → Nat → List Char
  | 0, _ => []
  | width + 1, n => inBase base width (n / base) ++ [Nat.digitChar (n % base)]

def padded (width n : Nat) : List Char := inBase 10 width n

def hex (width n : Nat) : List Char := inBase 16 width n

/-- The number below `limit` that a text shows in decimal digits, with or without a plus sign. -/
def number? (limit : Nat) (text : String) : Option Nat :=
  let digits := match text.toList with
    | '+' :: rest => rest
    | all => all
  let number := Nat.ofDigitChars 10 digits 0
  if digits ≠ [] ∧ digits.all Char.isDigit ∧ number < limit then some number else none

end ReactiveReach.Digits
