import ReactiveReach.Digits

/-!
# Numbers in JSON text

A number is recognised one character at a time. One of digits alone is known by its value. One with
a sign, a fraction or an exponent is never computed with, so its spelling is all that is kept of
it, and no other spelling of the same number is taken for it.
-/

namespace ReactiveReach.Json

/-- How far the scan is into a number. -/
inductive Numeral where
  /-- After the sign: a digit must follow. -/
  | sign
  /-- After a leading zero: no digit may follow. -/
  | zero (negative : Bool)
  | digits (value : Nat) (negative : Bool)
  /-- After the decimal point: a digit must follow. -/
  | point
  | fraction
  /-- After the mark of the exponent: a sign or a digit must follow. -/
  | mark
  /-- After the sign of the exponent: a digit must follow. -/
  | markSign
  | exponent
  deriving DecidableEq

namespace Numeral

/-- The numeral that starts with this character. -/
def start? (c : Char) : Option Numeral :=
  if c = '-' then some sign
  else if c = '0' then some (zero false)
  else (Digits.value? c).map (digits · false)

/-- What may follow the whole part: a point or the mark of an exponent. -/
def afterWhole? (c : Char) : Option Numeral :=
  if c = '.' then some point else if c = 'e' ∨ c = 'E' then some mark else none

/-- The numeral with one more character, if it goes on with that character. -/
def next? : Numeral → Char → Option Numeral
  | sign, c => if c = '0' then some (zero true) else (Digits.value? c).map (digits · true)
  | zero _, c => afterWhole? c
  | digits value negative, c =>
    match Digits.value? c with
    | some digit => some (digits (10 * value + digit) negative)
    | none => afterWhole? c
  | point, c => (Digits.value? c).map fun _ => fraction
  | fraction, c =>
    if (Digits.value? c).isSome then some fraction
    else if c = 'e' ∨ c = 'E' then some mark else none
  | mark, c =>
    if c = '+' ∨ c = '-' then some markSign else (Digits.value? c).map fun _ => exponent
  | markSign, c => (Digits.value? c).map fun _ => exponent
  | exponent, c => (Digits.value? c).map fun _ => exponent

/-- The numeral that some characters spell, whether or not it may end there. -/
def ofChars? : List Char → Option Numeral
  | [] => none
  | c :: rest => do rest.foldlM next? (← start? c)

/-- The value of a numeral of digits alone. -/
def natural? : Numeral → Option Nat
  | zero false => some 0
  | digits value false => some value
  | _ => none

/-- Whether a numeral may end here and has more than digits. -/
def isOther : Numeral → Bool
  | zero negative | digits _ negative => negative
  | fraction | exponent => true
  | sign | point | mark | markSign => false

end Numeral

/-- A number with a sign, a fraction or an exponent, as it is spelled. -/
structure OtherNumber where
  spelling : List Char
  valid : (Numeral.ofChars? spelling).any Numeral.isOther = true
  deriving DecidableEq

def OtherNumber.ofChars? (spelling : List Char) : Option OtherNumber :=
  if valid : (Numeral.ofChars? spelling).any Numeral.isOther = true then some ⟨spelling, valid⟩
  else none

end ReactiveReach.Json
