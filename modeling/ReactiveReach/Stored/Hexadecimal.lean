import ReactiveReach.Digits

/-!
# Bytes as hexadecimal text

Each byte is shown as two hexadecimal digits, the higher one first. Written digits are in lower
case, and either case is read.
-/

namespace ReactiveReach.Bytes

def toHex (bytes : List UInt8) : String :=
  String.ofList (bytes.flatMap fun byte => Digits.hex 2 byte.toNat)

/-- The bytes that some hexadecimal digits show, two digits a byte. -/
def ofHexDigits? : List Char → Option (List UInt8)
  | [] => some []
  | high :: low :: rest => do
    let byte := 16 * (← Digits.hexValue? high) + (← Digits.hexValue? low)
    return .ofNat byte :: (← ofHexDigits? rest)
  | [_] => none

def ofHex? (text : String) : Option (List UInt8) := ofHexDigits? text.toList

end ReactiveReach.Bytes
