import ReactiveReach.Json.Basic

/-!
# Writing JSON

Compact text has no blanks; indented text puts each item and member on a line of its own, two
spaces deeper than what encloses it. A quote, a backslash and the control characters are escaped,
all other characters stand for themselves. A string that no text can hold is written as one of its
kind.
-/

namespace ReactiveReach.Json

/-- The letter that stands for a character after a backslash. -/
def escapeLetter? : Char → Option Char
  | '"' => some '"'
  | '\\' => some '\\'
  | '\x08' => some 'b'
  | '\x0c' => some 'f'
  | '\n' => some 'n'
  | '\r' => some 'r'
  | '\t' => some 't'
  | _ => none

/-- A character as it is written inside a string. -/
def escaped (c : Char) : List Char :=
  match escapeLetter? c with
  | some letter => ['\\', letter]
  | none =>
    if c.toNat < 0x20 then
      ['\\', 'u', '0', '0', Nat.digitChar (c.toNat / 16), Nat.digitChar (c.toNat % 16)]
    else [c]

def quoted : Option String → List Char
  | some content => '"' :: content.toList.flatMap escaped ++ ['"']
  | none => ['"', '\\', 'u', 'd', '8', '0', '0', '"']

/-- A value that is neither an array nor an object. -/
def atom : Json → List Char
  | .null => ['n', 'u', 'l', 'l']
  | .bool true => ['t', 'r', 'u', 'e']
  | .bool false => ['f', 'a', 'l', 's', 'e']
  | .natural value => (toString value).toList
  | .otherNumber number => number.spelling
  | .text content => quoted content
  | .array _ | .object _ => []

mutual

/-- A value without blanks. -/
def compactChars : Json → List Char
  | .array [] => ['[', ']']
  | .array (item :: items) => '[' :: compactChars item ++ compactItems items
  | .object [] => ['{', '}']
  | .object ((name, value) :: members) =>
    '{' :: quoted name ++ ':' :: compactChars value ++ compactMembers members
  | json => atom json

/-- The items after the first, and the end of the array. -/
def compactItems : List Json → List Char
  | [] => [']']
  | item :: items => ',' :: compactChars item ++ compactItems items

/-- The members after the first, and the end of the object. -/
def compactMembers : List (Option String × Json) → List Char
  | [] => ['}']
  | (name, value) :: members =>
    ',' :: quoted name ++ ':' :: compactChars value ++ compactMembers members

end

/-- The start of a line that is `depth` levels deep. -/
def newLine (depth : Nat) : List Char := '\n' :: List.replicate (2 * depth) ' '

mutual

/-- A value with indented contents, standing `depth` levels deep. -/
def indentedChars (depth : Nat) : Json → List Char
  | .array [] => ['[', ']']
  | .array (item :: items) =>
    '[' :: newLine (depth + 1) ++ indentedChars (depth + 1) item ++ indentedItems depth items
  | .object [] => ['{', '}']
  | .object ((name, value) :: members) =>
    '{' :: newLine (depth + 1) ++ quoted name ++ ':' :: ' ' :: indentedChars (depth + 1) value ++
      indentedMembers depth members
  | json => atom json

/-- The items after the first, and the end of the array. -/
def indentedItems (depth : Nat) : List Json → List Char
  | [] => newLine depth ++ [']']
  | item :: items =>
    ',' :: newLine (depth + 1) ++ indentedChars (depth + 1) item ++ indentedItems depth items

/-- The members after the first, and the end of the object. -/
def indentedMembers (depth : Nat) : List (Option String × Json) → List Char
  | [] => newLine depth ++ ['}']
  | (name, value) :: members =>
    ',' :: newLine (depth + 1) ++ quoted name ++ ':' :: ' ' :: indentedChars (depth + 1) value ++
      indentedMembers depth members

end

def compact (json : Json) : String := String.ofList (compactChars json)

def indented (json : Json) : String := String.ofList (indentedChars 0 json)

end ReactiveReach.Json
