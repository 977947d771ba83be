import Mathlib.Algebra.Group.Nat.Defs
import ReactiveReach.Digits

/-!
# Reading back written digits

A number written with a fixed count of digits is read back without the part that did not fit. All
that is used of a digit is that it is one, and which.
-/

namespace ReactiveReach.Digits

@[simp]
theorem value?_digitChar {digit : Nat} (small : digit < 10) :
    value? digit.digitChar = some digit := by
  have shown : digit.digitChar.toNat = 48 + digit := Nat.toNat_digitChar_of_lt_ten small
  have zero : '0'.toNat = 48 := rfl
  simp only [value?, Nat.isDigit_digitChar, small, decide_true, if_true, shown, zero]
  congr 1
  omega

/-- The ten digits are the only characters that have a value. -/
theorem value?_eq_some_iff {c : Char} {digit : Nat} :
    value? c = some digit ↔ digit < 10 ∧ digit.digitChar = c := by
  constructor
  · intro shown
    obtain ⟨isDigit, value⟩ : c.isDigit = true ∧ c.toNat - '0'.toNat = digit := by
      simpa [value?] using shown
    have zero : '0'.toNat = 48 := rfl
    have nine : '9'.toNat = 57 := rfl
    have bounds := Char.isDigit_iff_toNat.mp isDigit
    have small : digit < 10 := by omega
    refine ⟨small, Char.toNat_inj.mp ?_⟩
    rw [Nat.toNat_digitChar_of_lt_ten small]
    omega
  · rintro ⟨small, rfl⟩
    exact value?_digitChar small

@[simp]
theorem hexValue?_digitChar {digit : Nat} (small : digit < 16) :
    hexValue? digit.digitChar = some digit := by
  have checked : ∀ digit < 16, hexValue? digit.digitChar = some digit := by decide
  exact checked digit small

@[simp]
theorem length_inBase (base width n : Nat) : (inBase base width n).length = width := by
  induction width generalizing n with
  | zero => rfl
  | succ width ih => simp [inBase, ih]

@[simp]
theorem length_padded (width n : Nat) : (padded width n).length = width :=
  length_inBase 10 width n

theorem isDigit_of_mem_padded {width n : Nat} {c : Char} (member : c ∈ padded width n) :
    c.isDigit = true := by
  induction width generalizing n with
  | zero => simp [padded, inBase] at member
  | succ width ih =>
      rcases List.mem_append.mp member with earlier | last
      · exact ih earlier
      · rw [List.mem_singleton.mp last, Nat.isDigit_digitChar]
        simpa using Nat.mod_lt n (by decide)

theorem ofDigitChars_padded (width n : Nat) :
    Nat.ofDigitChars 10 (padded width n) 0 = n % 10 ^ width := by
  induction width generalizing n with
  | zero => simp [padded, inBase, Nat.mod_one]
  | succ width ih =>
      have last : n % 10 < 10 := Nat.mod_lt n (by decide)
      calc Nat.ofDigitChars 10 (padded (width + 1) n) 0
          = 10 * Nat.ofDigitChars 10 (padded width (n / 10)) 0 + n % 10 := by
            simp only [padded, inBase, Nat.ofDigitChars_append]
            rw [Nat.ofDigitChars_cons_digitChar_of_lt_ten last, Nat.ofDigitChars_nil]
        _ = 10 * (n / 10 % 10 ^ width) + n % 10 := by rw [ih]
        _ = n % 10 ^ (width + 1) := by
            rw [Nat.pow_succ', Nat.mod_mul]
            omega

theorem ofDigitChars_padded_of_lt {width n : Nat} (fits : n < 10 ^ width) :
    Nat.ofDigitChars 10 (padded width n) 0 = n := by
  rw [ofDigitChars_padded, Nat.mod_eq_of_lt fits]

end ReactiveReach.Digits
