import ReactiveReach.Digits

/-!
# Random identifiers

An identifier is written as thirty-two hexadecimal digits in five groups. Two of the digits tell
that it is random: the first of the third group is 4, and the first of the fourth group is one of
8, 9, a and b. All others are random.
-/

namespace ReactiveReach.Uuid

/-- The random identifier made of these bits. -/
def ofBits (bits : Nat) : String :=
  String.ofList <|
    Digits.hex 8 (bits >>> 96) ++ '-' :: Digits.hex 4 (bits >>> 80) ++
      '-' :: '4' :: Digits.hex 3 (bits >>> 64) ++
      '-' :: Nat.digitChar (8 + (bits >>> 60) % 4) :: Digits.hex 3 (bits >>> 48) ++
      '-' :: Digits.hex 12 bits

/-- Whether a character is a hexadecimal digit in lower case. -/
def isHexDigit (c : Char) : Bool := c.isDigit || ('a' ≤ c && c ≤ 'f')

/-- Whether a character may stand at a place, counted from zero, of a random identifier. -/
def fits (place : Nat) (c : Char) : Bool :=
  if place = 8 ∨ place = 13 ∨ place = 18 ∨ place = 23 then c = '-'
  else if place = 14 then c = '4'
  else if place = 19 then ['8', '9', 'a', 'b'].contains c
  else isHexDigit c

def isRandom (text : String) : Bool :=
  text.length = 36 && text.toList.zipIdx.all fun (c, place) => fits place c

end ReactiveReach.Uuid
