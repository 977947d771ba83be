/-!
# The byte form of words, texts and sequences

A word has a fixed number of bytes, the least significant first. A text is the number of its UTF-8
bytes as a word of eight bytes, and then those bytes; a sequence is its length and then its items.
What is too long for its length to fit that word has no byte form.
-/

namespace ReactiveReach.Bytes

variable {α : Type}

/-- Takes a value from the front of some bytes and hands back the rest. -/
abbrev Reader (α : Type) := StateT (List UInt8) Option α

/-- The `width` least significant bytes of a number. -/
def word : Nat → Nat → List UInt8
  | 0, _ => []
  | width + 1, n => UInt8.ofNat n :: word width (n / 256)

def readByte : Reader UInt8
  | [] => none
  | byte :: bytes => some (byte, bytes)

/-- Reads a word of `width` bytes. -/
def readWord : Nat → Reader Nat
  | 0 => return 0
  | width + 1 => do
    let byte ← readByte
    let higher ← readWord width
    return byte.toNat + 256 * higher

/-- How many bytes or items can be counted ahead of them. -/
def lengthLimit : Nat := UInt64.size

/-- A text behind its length. -/
def text? (content : String) : Option (List UInt8) :=
  if content.utf8ByteSize < lengthLimit then
    some (word 8 content.utf8ByteSize ++ content.toUTF8.data.toList)
  else none

/-- Reads a text of `size` bytes. -/
def readContent (size : Nat) : Reader String := fun bytes => do
  let taken := bytes.take size
  guard (taken.length = size)
  return (← String.fromUTF8? ⟨taken.toArray⟩, bytes.drop size)

/-- Reads a text behind its length. -/
def readText : Reader String := do
  let size ← readWord 8
  readContent size

def readItems (readItem : Reader α) : Nat → Reader (List α)
  | 0 => return []
  | count + 1 => do
    let item ← readItem
    let items ← readItems readItem count
    return item :: items

/-- Reads a sequence behind its length. -/
def readSequence (readItem : Reader α) : Reader (List α) := do
  let count ← readWord 8
  readItems readItem count

/-- A sequence behind its length, from the forms of its items. -/
def sequence? (items : List (List UInt8)) : Option (List UInt8) :=
  if items.length < lengthLimit then some (word 8 items.length ++ items.flatten) else none

end ReactiveReach.Bytes
