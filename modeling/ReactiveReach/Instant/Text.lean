import ReactiveReach.Digits
import ReactiveReach.Instant

/-!
# The written form of instants

An instant is written as a date, the letter `T`, a time of day and the letter `Z`. Seconds have a
fraction of three, six or nine digits, the fewest that lose nothing, or none. Years outside 0 to
9999 have a sign.

Reading is more generous. The offset of a clock may stand in place of `Z`; numbers may have
fewer digits; blanks may stand before a number, a hyphen, a colon or an offset and after the
whole; and a fraction may have any number of digits, of which nine count.
-/

namespace ReactiveReach.Instant

/-- A year of four digits, or with a sign if it has other than four. -/
def yearChars (year : Int) : List Char :=
  if 0 ≤ year ∧ year ≤ 9999 then Digits.padded 4 year.toNat
  else
    let digits := (toString year.natAbs).toList
    (if year < 0 then '-' else '+') :: (List.replicate (4 - digits.length) '0' ++ digits)

/-- The fraction of a second. -/
def fractionChars (nanosecond : Nat) : List Char :=
  if nanosecond = 0 then []
  else if nanosecond % 1000000 = 0 then '.' :: Digits.padded 3 (nanosecond / 1000000)
  else if nanosecond % 1000 = 0 then '.' :: Digits.padded 6 (nanosecond / 1000)
  else '.' :: Digits.padded 9 nanosecond

/-- The characters of the written form. -/
def chars (instant : Instant) : List Char :=
  let date := instant.date
  let time := instant.time
  yearChars date.year ++ '-' :: Digits.padded 2 date.month ++ '-' :: Digits.padded 2 date.day ++
    'T' :: Digits.padded 2 time.hour ++ ':' :: Digits.padded 2 time.minute ++
    ':' :: Digits.padded 2 time.second ++ fractionChars time.nanosecond ++ ['Z']

def text (instant : Instant) : String := String.ofList instant.chars

/-- Closed ranges of the code points that are white space by their Unicode property. -/
def blankRanges : List (Nat × Nat) :=
  [(0x09, 0x0D), (0x20, 0x20), (0x85, 0x85), (0xA0, 0xA0), (0x1680, 0x1680), (0x2000, 0x200A),
    (0x2028, 0x2029), (0x202F, 0x202F), (0x205F, 0x205F), (0x3000, 0x3000)]

def isBlank (c : Char) : Bool :=
  blankRanges.any fun (first, last) => first ≤ c.toNat && c.toNat ≤ last

/-- The rest of a text after leading blanks. -/
def skipBlanks (text : List Char) : List Char := text.dropWhile isBlank

/-- A number of at least one digit and at most `width`, with the digits it was read from. -/
def digits? (width : Nat) (text : List Char) : Option (List Char × List Char) :=
  match (text.take width).takeWhile Char.isDigit with
  | [] => none
  | digits => some (digits, text.drop digits.length)

/-- A number of at most `width` digits after blanks. -/
def number? (width : Nat) (text : List Char) : Option (Nat × List Char) := do
  let (digits, rest) ← digits? width (skipBlanks text)
  return (Nat.ofDigitChars 10 digits 0, rest)

/-- The rest of a text after blanks and one given character. -/
def mark? (c : Char) (text : List Char) : Option (List Char) :=
  match skipBlanks text with
  | [] => none
  | first :: rest => if first = c then some rest else none

/-- A year of at most four digits, or of any number of digits after a sign. -/
def year? (text : List Char) : Option (Int × List Char) :=
  let signed (negative : Bool) (rest : List Char) : Option (Int × List Char) := do
    let (digits, rest) ← digits? rest.length rest
    let size := Nat.ofDigitChars 10 digits 0
    return (if negative then - (size : Int) else size, rest)
  match skipBlanks text with
  | '-' :: rest => signed true rest
  | '+' :: rest => signed false rest
  | rest => do
    let (digits, rest) ← digits? 4 rest
    return (Nat.ofDigitChars 10 digits 0, rest)

/-- The nanoseconds of a fraction, if there is one. Digits after the ninth do not count. -/
def fraction? : List Char → Option (Nat × List Char)
  | '.' :: text => do
    let (digits, rest) ← digits? 9 text
    return (Nat.ofDigitChars 10 (digits.rightpad 9 '0') 0, rest.dropWhile Char.isDigit)
  | text => some (0, text)

/-- Whether a year is one of those that instants are read in. -/
def isReadableYear (year : Int) : Bool := -262143 ≤ year && year ≤ 262142

/-- A date of a readable year. -/
def date? (text : List Char) : Option (Date × List Char) := do
  let (year, text) ← year? text
  let (month, text) ← number? 2 (← mark? '-' text)
  let (day, text) ← number? 2 (← mark? '-' text)
  guard (isReadableYear year)
  return (← Date.ofParts? year month day, text)

def time? (text : List Char) : Option (TimeOfDay × List Char) := do
  let (hour, text) ← number? 2 text
  let (minute, text) ← number? 2 (← mark? ':' text)
  let (second, text) ← number? 2 (← mark? ':' text)
  let (nanosecond, text) ← fraction? text
  return (← TimeOfDay.ofParts? hour minute second nanosecond, text)

/-- The offset of a clock in minutes: two digits for the hours, any colons and blanks, two digits
for the minutes. -/
def offset? : List Char → Option (Nat × List Char)
  | h :: h' :: text => do
    let hours := 10 * (← Digits.value? h) + (← Digits.value? h')
    match text.dropWhile fun c => c = ':' || isBlank c with
    | m :: m' :: rest =>
      let minutes := 10 * (← Digits.value? m) + (← Digits.value? m')
      guard (minutes < 60 ∧ hours < 24)
      return (60 * hours + minutes, rest)
    | _ => none
  | _ => none

/-- How far a clock is ahead of the prime meridian, in minutes. A minus sign may also be the
mathematical one. -/
def zone? : List Char → Option (Int × List Char)
  | 'Z' :: rest | 'z' :: rest => some (0, rest)
  | '+' :: rest => do
    let (minutes, rest) ← offset? rest
    return (minutes, rest)
  | '-' :: rest | '\u2212' :: rest => do
    let (minutes, rest) ← offset? rest
    return (- (minutes : Int), rest)
  | u :: t :: c :: rest =>
    if u.toUpper = 'U' ∧ t.toUpper = 'T' ∧ c.toUpper = 'C' then some (0, rest) else none
  | _ => none

def ofChars? (text : List Char) : Option Instant := do
  let (date, text) ← date? text
  let text ← match text with
    | 'T' :: rest | 't' :: rest | ' ' :: rest => some rest
    | _ => none
  let (time, text) ← time? text
  let (ahead, text) ← zone? (skipBlanks text)
  guard (skipBlanks text).isEmpty
  let instant := ofLocal date time ahead
  guard (isReadableYear instant.date.year)
  return instant

def ofText? (text : String) : Option Instant := ofChars? text.toList

end ReactiveReach.Instant
