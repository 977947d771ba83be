import Mathlib.Algebra.Group.Nat.Defs
import Mathlib.Control.Basic
import Mathlib.Data.List.Forall2
import Mathlib.Data.Option.Basic
import ReactiveReach.Stored.Bytes

/-!
# Forms that are read to their end and no further

A reader takes a byte form from the front of any bytes and hands back what follows it, and it gives
up on any bytes that end before the form does. Both go over from the parts of a form to the whole,
so a form made of many parts fails cleanly wherever it is cut.
-/

namespace ReactiveReach.Bytes

variable {α β : Type}

/-- The reader takes exactly this form for this value: it reads no further, and refuses the form
when its end is missing. -/
structure Delimits (reader : Reader α) (form : List UInt8) (value : α) : Prop where
  whole : ∀ rest, reader.run (form ++ rest) = some (value, rest)
  cut : ∀ part, part <+: form → part ≠ form → reader.run part = none

/-- What is missing the end of two forms is missing that of the first, or goes on into the
second. -/
private theorem prefix_of_append {part first second : List UInt8}
    (isPrefix : part <+: first ++ second) (strict : part ≠ first ++ second) :
    (part <+: first ∧ part ≠ first) ∨
      ∃ rest, part = first ++ rest ∧ rest <+: second ∧ rest ≠ second := by
  rcases List.prefix_or_prefix_of_prefix isPrefix (List.prefix_append first second) with
    inside | ⟨rest, rfl⟩
  · by_cases whole : part = first
    · refine .inr ⟨[], by simp [whole], List.nil_prefix, ?_⟩
      rintro rfl
      exact strict (by simp [whole])
    · exact .inl ⟨inside, whole⟩
  · refine .inr ⟨rest, rfl, (List.prefix_append_right_inj first).mp isPrefix, ?_⟩
    rintro rfl
    exact strict rfl

namespace Delimits

theorem pure (value : α) : Delimits (pure value) [] value where
  whole _ := rfl
  cut _ isPrefix strict := absurd (List.prefix_nil.mp isPrefix) strict

/-- One form behind another. -/
theorem bind {reader : Reader α} {next : α → Reader β} {first second : List UInt8} {middle : α}
    {value : β} (begins : Delimits reader first middle)
    (ends : Delimits (next middle) second value) :
    Delimits (reader >>= next) (first ++ second) value where
  whole rest := by simp [begins.whole, ends.whole]
  cut part isPrefix strict := by
    rcases prefix_of_append isPrefix strict with ⟨inside, short⟩ | ⟨rest, rfl, inside, short⟩
    · simp [begins.cut part inside short]
    · simp [begins.whole, ends.cut rest inside short]

/-- What is done with a value once it is read takes no more bytes. -/
theorem andThen {reader : Reader α} {next : α → Reader β} {form : List UInt8} {middle : α}
    {value : β} (reads : Delimits reader form middle) (ends : Delimits (next middle) [] value) :
    Delimits (reader >>= next) form value := by
  simpa using reads.bind ends

theorem map (view : α → β) {reader : Reader α} {form : List UInt8} {original : α}
    (reads : Delimits reader form original) : Delimits (view <$> reader) form (view original) := by
  rw [map_eq_pure_bind]
  exact reads.andThen (.pure _)

end Delimits

/-! ## Words -/

private theorem delimits_byte (byte : UInt8) : Delimits readByte [byte] byte where
  whole _ := rfl
  cut part isPrefix strict := by
    rcases List.prefix_cons_iff.mp isPrefix with rfl | ⟨rest, rfl, inside⟩
    · rfl
    · exact absurd (by rw [List.prefix_nil.mp inside]) strict

theorem delimits_word {width n : Nat} (fits : n < 256 ^ width) :
    Delimits (readWord width) (word width n) n := by
  induction width generalizing n with
  | zero =>
      obtain rfl : n = 0 := by simpa using fits
      exact .pure 0
  | succ width ih =>
      have higherFits : n / 256 < 256 ^ width := by
        rwa [Nat.div_lt_iff_lt_mul (by decide), ← Nat.pow_succ]
      have higher := (ih higherFits).map fun higher => n % 256 + 256 * higher
      rw [Nat.mod_add_div] at higher
      simp only [readWord, word, ← map_eq_pure_bind]
      exact (delimits_byte (UInt8.ofNat n)).bind (by simpa using higher)

/-! ## Texts -/

theorem fromUTF8?_toUTF8 (content : String) : String.fromUTF8? content.toUTF8 = some content := by
  rw [String.fromUTF8?, String.toUTF8_eq_toByteArray, dif_pos content.isValidUTF8]
  rfl

private theorem delimits_content (content : String) :
    Delimits (readContent content.utf8ByteSize) content.toUTF8.data.toList content := by
  have length : content.toUTF8.data.toList.length = content.utf8ByteSize := rfl
  constructor
  · intro rest
    have valid : String.fromUTF8? ⟨content.toUTF8.data⟩ = some content := fromUTF8?_toUTF8 content
    rw [StateT.run, readContent, ← length, List.take_left, List.drop_left, Array.toArray_toList,
      valid]
    simp
  · intro part isPrefix strict
    have shorter : part.length < content.utf8ByteSize := by
      rw [← length]
      exact Nat.lt_of_le_of_ne isPrefix.length_le fun same => strict (isPrefix.eq_of_length same)
    have missing : (part.take content.utf8ByteSize).length ≠ content.utf8ByteSize := by
      rw [List.length_take]
      omega
    simp only [StateT.run, readContent, missing, guard_false]
    rfl

theorem delimits_text {content : String} {form : List UInt8} (written : text? content = some form) :
    Delimits readText form content := by
  unfold text? at written
  split at written
  · rename_i countable
    obtain rfl := Option.some.inj written
    have size : Delimits (readWord 8) (word 8 content.utf8ByteSize) content.utf8ByteSize :=
      delimits_word countable
    exact size.bind (delimits_content content)
  · simp at written

/-! ## Sequences -/

variable {readItem : Reader α}

theorem delimits_items {forms : List (List UInt8)} {items : List α}
    (each : List.Forall₂ (Delimits readItem) forms items) :
    Delimits (readItems readItem items.length) forms.flatten items := by
  induction each with
  | nil => exact .pure []
  | cons first rest ih => exact first.bind (ih.andThen (.pure _))

theorem delimits_sequence {forms : List (List UInt8)} {items : List α} {form : List UInt8}
    (each : List.Forall₂ (Delimits readItem) forms items)
    (written : sequence? forms = some form) :
    Delimits (readSequence readItem) form items := by
  unfold sequence? at written
  split at written
  · rename_i countable
    obtain rfl := Option.some.inj written
    have count : Delimits (readWord 8) (word 8 forms.length) forms.length :=
      delimits_word countable
    rw [each.length_eq] at count ⊢
    exact count.bind (delimits_items each)
  · simp at written

end ReactiveReach.Bytes
