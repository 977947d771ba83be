import ReactiveReach.Json.Basic

/-!
# Tokens of JSON text

The text is scanned one character at a time by an automaton that remembers how far it is into a
word, a number or a string. Blanks between tokens are spaces, tabs, line feeds and carriage
returns.
-/

namespace ReactiveReach.Json

inductive Token where
  | openObject
  | closeObject
  | openArray
  | closeArray
  | colon
  | comma
  | null
  | bool (value : Bool)
  | natural (value : Nat)
  | otherNumber (number : OtherNumber)
  | text (content : Option String)
  deriving DecidableEq

/-- The token of a number that ends here, if it may, spelled with its last character first. -/
def Numeral.token? (numeral : Numeral) (reversed : List Char) : Option Token :=
  match numeral.natural? with
  | some value => some (.natural value)
  | none => (OtherNumber.ofChars? reversed.reverse).map .otherNumber

/-- The content of a string read so far. -/
structure Content where
  /-- The characters, last first, or `none` once half of a surrogate pair stood alone. -/
  reversed : Option (List Char)
  /-- The first half of a surrogate pair, when the second must follow. -/
  high : Option Nat
  deriving DecidableEq

namespace Content

def empty : Content := ⟨some [], none⟩

/-- Adds a character. It ends a pair that is still open, which spoils the content. -/
def push (content : Content) (c : Char) : Content :=
  match content.high with
  | none => ⟨content.reversed.map (c :: ·), none⟩
  | some _ => ⟨none, none⟩

/-- Adds the 16-bit unit that an escape stands for. -/
def pushUnit (content : Content) (unit : Nat) : Content :=
  let isHigh := 0xD800 ≤ unit ∧ unit < 0xDC00
  let isLow := 0xDC00 ≤ unit ∧ unit < 0xE000
  match content.high with
  | none =>
    if isHigh then ⟨content.reversed, some unit⟩
    else if isLow then ⟨none, none⟩
    else content.push (Char.ofNat unit)
  | some high =>
    if isLow then
      let c := Char.ofNat (0x10000 + (high - 0xD800) * 0x400 + (unit - 0xDC00))
      ⟨content.reversed.map (c :: ·), none⟩
    else ⟨none, none⟩

/-- The content at the end of the string. -/
def finish (content : Content) : Option String :=
  match content.high with
  | none => content.reversed.map fun reversed => String.ofList reversed.reverse
  | some _ => none

end Content

/-- The character that a one-letter escape stands for. -/
def unescape? : Char → Option Char
  | '"' => some '"'
  | '\\' => some '\\'
  | '/' => some '/'
  | 'b' => some '\x08'
  | 'f' => some '\x0c'
  | 'n' => some '\n'
  | 'r' => some '\r'
  | 't' => some '\t'
  | _ => none

/-- How far the scan is into a token. -/
inductive Scan where
  | blank
  /-- Inside a word, of which these letters are left. -/
  | word (left : List Char) (token : Token)
  /-- Inside a number, of which the last character comes first. -/
  | number (numeral : Numeral) (reversed : List Char)
  | string (content : Content)
  /-- After a backslash in a string. -/
  | escape (content : Content)
  /-- After some hexadecimal digits of a 16-bit unit; `left` more follow. -/
  | unit (content : Content) (left : Nat) (value : Nat)
  deriving DecidableEq

/-- The tokens that are complete, the last first, and how far the scan is into the next. -/
structure Scanned where
  tokens : List Token
  scan : Scan
  deriving DecidableEq

namespace Scanned

/-- The scan of no text. -/
def start : Scanned := ⟨[], .blank⟩

/-- Scans a character at which no token is open. -/
def begin (tokens : List Token) (c : Char) : Option Scanned :=
  match c with
  | ' ' | '\t' | '\n' | '\r' => some ⟨tokens, .blank⟩
  | '{' => some ⟨.openObject :: tokens, .blank⟩
  | '}' => some ⟨.closeObject :: tokens, .blank⟩
  | '[' => some ⟨.openArray :: tokens, .blank⟩
  | ']' => some ⟨.closeArray :: tokens, .blank⟩
  | ':' => some ⟨.colon :: tokens, .blank⟩
  | ',' => some ⟨.comma :: tokens, .blank⟩
  | 'n' => some ⟨tokens, .word ['u', 'l', 'l'] .null⟩
  | 't' => some ⟨tokens, .word ['r', 'u', 'e'] (.bool true)⟩
  | 'f' => some ⟨tokens, .word ['a', 'l', 's', 'e'] (.bool false)⟩
  | '"' => some ⟨tokens, .string .empty⟩
  | _ => (Numeral.start? c).map fun numeral => ⟨tokens, .number numeral [c]⟩

/-- Scans one character of a string. -/
def inString (tokens : List Token) (content : Content) (c : Char) : Option Scanned :=
  if c = '"' then some ⟨.text content.finish :: tokens, .blank⟩
  else if c = '\\' then some ⟨tokens, .escape content⟩
  else if c.toNat < 0x20 then none
  else some ⟨tokens, .string (content.push c)⟩

/-- Scans the character after a backslash. -/
def inEscape (tokens : List Token) (content : Content) (c : Char) : Option Scanned :=
  if c = 'u' then some ⟨tokens, .unit content 4 0⟩
  else (unescape? c).map fun unescaped => ⟨tokens, .string (content.push unescaped)⟩

/-- Scans one character. -/
def next? (scanned : Scanned) (c : Char) : Option Scanned :=
  let tokens := scanned.tokens
  match scanned.scan with
  | .blank => begin tokens c
  | .word [] token => begin (token :: tokens) c
  | .word (letter :: left) token =>
    if c = letter then some ⟨tokens, .word left token⟩ else none
  | .number numeral reversed =>
    match numeral.next? c with
    | some longer => some ⟨tokens, .number longer (c :: reversed)⟩
    | none => do begin ((← numeral.token? reversed) :: tokens) c
  | .string content => inString tokens content c
  | .escape content => inEscape tokens content c
  | .unit content left value => do
    let digit ← Digits.hexValue? c
    let value := 16 * value + digit
    match left with
    | 0 | 1 => return ⟨tokens, .string (content.pushUnit value)⟩
    | left + 1 => return ⟨tokens, .unit content left value⟩

/-- The tokens of a text that ends here. -/
def finish (scanned : Scanned) : Option (List Token) :=
  match scanned.scan with
  | .blank => some scanned.tokens.reverse
  | .word [] token => some (token :: scanned.tokens).reverse
  | .number numeral reversed => do
    return ((← numeral.token? reversed) :: scanned.tokens).reverse
  | _ => none

end Scanned

def scan (text : List Char) : Option (List Token) := do
  (← text.foldlM Scanned.next? .start).finish

end ReactiveReach.Json
