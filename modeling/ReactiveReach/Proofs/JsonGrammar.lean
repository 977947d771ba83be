import Mathlib.Data.List.Forall2
import ReactiveReach.Proofs.JsonNumbers

/-!
# The grammar of JSON text

What tokens look like in a text, said without a reader in mind. A string is spelled part by part,
where an escape may stand for a character or for half of a surrogate pair. Around every token there
may be any blanks.
-/

namespace ReactiveReach.Json

/-! ## Strings -/

/-- What a part of a string stands for: a character, or a unit of which two may make one. -/
inductive Piece where
  | char (c : Char)
  | unit (value : Nat)

namespace Piece

inductive Spelled : Piece → List Char → Prop
  | plain {c : Char} : c ≠ '"' → c ≠ '\\' → 0x20 ≤ c.toNat → Spelled (.char c) [c]
  | letter {letter c : Char} : unescape? letter = some c → Spelled (.char c) ['\\', letter]
  | unit {a b c d : Char} {first second third fourth : Nat} :
      Digits.hexValue? a = some first → Digits.hexValue? b = some second →
      Digits.hexValue? c = some third → Digits.hexValue? d = some fourth →
      Spelled (.unit (16 * (16 * (16 * first + second) + third) + fourth))
        ['\\', 'u', a, b, c, d]

/-- The first half of a surrogate pair. -/
def isHigh (unit : Nat) : Bool := 0xD800 ≤ unit && unit < 0xDC00

/-- The second half of a surrogate pair. -/
def isLow (unit : Nat) : Bool := 0xDC00 ≤ unit && unit < 0xE000

/-- The characters that the parts of a string stand for, unless half of a pair stands alone. -/
def decode : List Piece → Option (List Char)
  | [] => some []
  | .char c :: rest => (decode rest).map (c :: ·)
  | .unit value :: rest =>
    if isLow value then none
    else if isHigh value then
      match rest with
      | .unit low :: rest =>
        if isLow low then
          (decode rest).map
            (Char.ofNat (0x10000 + (value - 0xD800) * 0x400 + (low - 0xDC00)) :: ·)
        else none
      | _ => none
    else (decode rest).map (Char.ofNat value :: ·)

theorem decode_low {value : Nat} (low : isLow value = true) (rest : List Piece) :
    decode (.unit value :: rest) = none := by
  rcases rest with _ | ⟨_ | _, _⟩ <;> simp [decode, low]

theorem decode_plain {value : Nat} (notLow : ¬isLow value = true) (notHigh : ¬isHigh value = true)
    (rest : List Piece) :
    decode (.unit value :: rest) = (decode rest).map (Char.ofNat value :: ·) := by
  rcases rest with _ | ⟨_ | _, _⟩ <;> simp [decode, notLow, notHigh]

end Piece

/-! ## Tokens and blanks -/

/-- The character of a token that is a mark. -/
def Token.mark? : Token → Option Char
  | openObject => some '{'
  | closeObject => some '}'
  | openArray => some '['
  | closeArray => some ']'
  | colon => some ':'
  | comma => some ','
  | null | bool _ | natural _ | otherNumber _ | text _ => none

inductive Token.Spelled : Token → List Char → Prop
  | mark {token : Token} {c : Char} : token.mark? = some c → Spelled token [c]
  | null : Spelled .null ['n', 'u', 'l', 'l']
  | true : Spelled (.bool true) ['t', 'r', 'u', 'e']
  | false : Spelled (.bool false) ['f', 'a', 'l', 's', 'e']
  | number (number : WrittenNumber) : Spelled number.token number.chars
  | text {pieces : List Piece} {spellings : List (List Char)} :
      List.Forall₂ Piece.Spelled pieces spellings →
      Spelled (.text ((Piece.decode pieces).map String.ofList))
        ('"' :: spellings.flatten ++ ['"'])

/-- Spaces, tabs, line feeds and carriage returns. -/
def AreBlank (chars : List Char) : Prop := ∀ c ∈ chars, c = ' ' ∨ c = '\t' ∨ c = '\n' ∨ c = '\r'

/-- Tokens one after the other, with any blanks around each of them. -/
inductive Spaced : List Token → List Char → Prop
  | nil {blanks : List Char} : AreBlank blanks → Spaced [] blanks
  | cons {blanks chars rest : List Char} {token : Token} {tokens : List Token} :
      AreBlank blanks → token.Spelled chars → Spaced tokens rest →
      Spaced (token :: tokens) (blanks ++ chars ++ rest)

namespace Spaced

variable {tokens others : List Token} {chars rest : List Char} {token : Token}

theorem blanks {blanks : List Char} (areBlank : AreBlank blanks) (spaced : Spaced tokens chars) :
    Spaced tokens (blanks ++ chars) := by
  have both {more : List Char} (moreBlank : AreBlank more) : AreBlank (blanks ++ more) :=
    fun c member => (List.mem_append.mp member).elim (areBlank c) (moreBlank c)
  cases spaced with
  | nil moreBlank => exact nil (both moreBlank)
  | cons moreBlank spelled spaced => simpa using cons (both moreBlank) spelled spaced

theorem spelled (spelled : token.Spelled chars) (spaced : Spaced tokens rest) :
    Spaced (token :: tokens) (chars ++ rest) := by
  have noBlanks : AreBlank [] := by simp [AreBlank]
  simpa using cons noBlanks spelled spaced

theorem mark {c : Char} (marks : token.mark? = some c) (spaced : Spaced tokens rest) :
    Spaced (token :: tokens) (c :: rest) :=
  spaced.spelled (.mark marks)

theorem append (first : Spaced tokens chars) (second : Spaced others rest) :
    Spaced (tokens ++ others) (chars ++ rest) := by
  induction first with
  | nil areBlank => exact second.blanks areBlank
  | cons areBlank spelled _ ih => simpa using cons areBlank spelled ih

end Spaced

end ReactiveReach.Json
