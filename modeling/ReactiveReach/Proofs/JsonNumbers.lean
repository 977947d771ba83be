import ReactiveReach.Json.Token
import ReactiveReach.Proofs.Digits

/-!
# The grammar of numbers

A number has a whole part without leading zeros and may have a sign, a fraction and an exponent.
The recogniser knows every number of this grammar, and what it knows is one as far as it goes.
-/

namespace ReactiveReach.Json

/-- One digit or more. -/
structure WrittenDigits where
  chars : List Char
  nonempty : chars ≠ []
  areDigits : ∀ c ∈ chars, c.isDigit = true

structure WrittenExponent where
  mark : Char
  isMark : mark = 'e' ∨ mark = 'E'
  sign : Option Char
  isSign : ∀ c ∈ sign, c = '+' ∨ c = '-'
  digits : WrittenDigits

structure WrittenNumber where
  negative : Bool
  whole : Nat
  fraction : Option WrittenDigits
  exponent : Option WrittenExponent

namespace WrittenNumber

def wholeChars (negative : Bool) (whole : Nat) : List Char :=
  (if negative then ['-'] else []) ++ Nat.toDigits 10 whole

def fractionChars : Option WrittenDigits → List Char
  | none => []
  | some digits => '.' :: digits.chars

def exponentChars : Option WrittenExponent → List Char
  | none => []
  | some exponent => exponent.mark :: (exponent.sign.toList ++ exponent.digits.chars)

def chars (number : WrittenNumber) : List Char :=
  wholeChars number.negative number.whole ++ fractionChars number.fraction ++
    exponentChars number.exponent

/-- Whether the number has digits alone. -/
def isNatural (number : WrittenNumber) : Bool :=
  !number.negative && number.fraction.isNone && number.exponent.isNone

end WrittenNumber

/-- The numeral of a whole part that is written out. -/
def Numeral.whole (negative : Bool) (n : Nat) : Numeral :=
  if n = 0 then zero negative else digits n negative

/-- What the recogniser knows at the end of a number. -/
def WrittenNumber.numeral (number : WrittenNumber) : Numeral :=
  match number.exponent, number.fraction with
  | some _, _ => .exponent
  | none, some _ => .fraction
  | none, none => .whole number.negative number.whole

namespace WrittenNumber

variable (negative : Bool) (n : Nat) (fraction : Option WrittenDigits)

@[simp]
theorem numeral_whole : numeral ⟨negative, n, none, none⟩ = .whole negative n :=
  rfl

@[simp]
theorem numeral_fraction (digits : WrittenDigits) :
    numeral ⟨negative, n, some digits, none⟩ = .fraction :=
  rfl

@[simp]
theorem chars_whole : chars ⟨negative, n, none, none⟩ = wholeChars negative n := by
  simp [chars, fractionChars, exponentChars]

@[simp]
theorem chars_fraction (digits : WrittenDigits) :
    chars ⟨negative, n, some digits, none⟩ = wholeChars negative n ++ '.' :: digits.chars := by
  simp [chars, fractionChars, exponentChars]

@[simp]
theorem chars_exponent (exponent : WrittenExponent) :
    chars ⟨negative, n, fraction, some exponent⟩ = wholeChars negative n ++
      fractionChars fraction ++ exponent.mark :: (exponent.sign.toList ++ exponent.digits.chars) :=
  rfl

@[simp]
theorem numeral_exponent (exponent : WrittenExponent) :
    numeral ⟨negative, n, fraction, some exponent⟩ = .exponent :=
  rfl

end WrittenNumber

namespace Numeral

theorem ofChars?_append {first : List Char} (nonempty : first ≠ []) (rest : List Char) :
    ofChars? (first ++ rest) = (ofChars? first).bind fun numeral => rest.foldlM next? numeral := by
  cases first with
  | nil => exact absurd rfl nonempty
  | cons c others =>
      cases started : start? c with
      | none => simp [ofChars?, started]
      | some numeral => simp [ofChars?, started, List.foldlM_append]

/-! ## Every number is recognised -/

private theorem start?_digitChar {digit : Nat} (small : digit < 10) :
    start? digit.digitChar = some (whole false digit) := by
  have noSign : digit.digitChar ≠ '-' := Nat.digitChar_ne '-' (by decide)
  by_cases isZero : digit = 0
  · subst isZero
    rfl
  · simp [start?, whole, noSign, isZero, small]

private theorem next?_sign {digit : Nat} (small : digit < 10) :
    sign.next? digit.digitChar = some (whole true digit) := by
  by_cases isZero : digit = 0
  · subst isZero
    rfl
  · simp [next?, whole, isZero, small]

private theorem next?_whole {negative : Bool} {n digit : Nat} (positive : 0 < n)
    (small : digit < 10) :
    (whole negative n).next? digit.digitChar = some (whole negative (10 * n + digit)) := by
  have nonzero : n ≠ 0 := by omega
  have stillNonzero : 10 * n + digit ≠ 0 := by omega
  rw [whole, if_neg nonzero, whole, if_neg stillNonzero]
  simp [next?, small]

theorem ofChars?_wholeChars (negative : Bool) (n : Nat) :
    ofChars? (WrittenNumber.wholeChars negative n) = some (whole negative n) := by
  -- All digits but the last spell `n / 10`, which is not zero, so that another may follow.
  induction n using Nat.strongRecOn with
  | ind n ih =>
      have last : n % 10 < 10 := Nat.mod_lt n (by decide)
      by_cases small : n < 10
      · rw [WrittenNumber.wholeChars, Nat.toDigits_of_lt_base small]
        cases negative
        · simp [ofChars?, start?_digitChar small]
        · have started : start? '-' = some sign := rfl
          simp [ofChars?, started, next?_sign small]
      · have earlier := ih (n / 10) (by omega)
        have split : WrittenNumber.wholeChars negative n =
            WrittenNumber.wholeChars negative (n / 10) ++ [(n % 10).digitChar] := by
          rw [WrittenNumber.wholeChars, Nat.toDigits_of_base_le (by decide) (by omega),
            ← List.append_assoc, ← WrittenNumber.wholeChars]
        rw [split, ofChars?_append (by simp [WrittenNumber.wholeChars, Nat.toDigits_ne_nil]),
          earlier]
        simp only [Option.bind_some, List.foldlM_cons, List.foldlM_nil,
          next?_whole (by omega : 0 < n / 10) last]
        have same : 10 * (n / 10) + n % 10 = n := Nat.div_add_mod n 10
        simp [same]

private theorem foldlM_onward {numeral : Numeral}
    (goesOn : ∀ c : Char, c.isDigit = true → numeral.next? c = some numeral) {chars : List Char}
    (areDigits : ∀ c ∈ chars, c.isDigit = true) :
    chars.foldlM next? numeral = some numeral := by
  induction chars with
  | nil => rfl
  | cons c chars ih =>
      rw [List.forall_mem_cons] at areDigits
      rw [List.foldlM_cons, goesOn c areDigits.1]
      exact ih areDigits.2

/-- Digits lead on to a numeral that goes on with digits. -/
private theorem foldlM_digits {first rest : Numeral}
    (leads : ∀ c : Char, c.isDigit = true → first.next? c = some rest)
    (goesOn : ∀ c : Char, c.isDigit = true → rest.next? c = some rest) (digits : WrittenDigits) :
    digits.chars.foldlM next? first = some rest := by
  obtain ⟨chars, nonempty, areDigits⟩ := digits
  cases chars with
  | nil => exact absurd rfl nonempty
  | cons c chars =>
      rw [List.forall_mem_cons] at areDigits
      rw [List.foldlM_cons, leads c areDigits.1]
      exact foldlM_onward goesOn areDigits.2

private theorem value?_of_isDigit {c : Char} (isDigit : c.isDigit = true) :
    Digits.value? c = some (c.toNat - '0'.toNat) := by
  simp [Digits.value?, isDigit]

private theorem foldlM_fraction (negative : Bool) (n : Nat) (fraction : Option WrittenDigits) :
    (WrittenNumber.fractionChars fraction).foldlM next? (whole negative n) =
      some (WrittenNumber.numeral ⟨negative, n, fraction, none⟩) := by
  cases fraction with
  | none => rfl
  | some digits =>
      have pointed : (whole negative n).next? '.' = some point := by
        by_cases isZero : n = 0 <;> simp [whole, isZero, next?, afterWhole?, Digits.value?]
      rw [WrittenNumber.fractionChars, List.foldlM_cons, pointed, WrittenNumber.numeral_fraction]
      refine foldlM_digits (fun c isDigit => ?_) (fun c isDigit => ?_) digits <;>
        simp [next?, value?_of_isDigit isDigit]

private theorem next?_mark {c : Char} (isMark : c = 'e' ∨ c = 'E') (negative : Bool) (n : Nat)
    (fraction : Option WrittenDigits) :
    (WrittenNumber.numeral ⟨negative, n, fraction, none⟩).next? c = some mark := by
  have noDigit : Digits.value? c = none := by rcases isMark with rfl | rfl <;> rfl
  have noPoint : c ≠ '.' := by rcases isMark with rfl | rfl <;> decide
  cases fraction with
  | none => by_cases isZero : n = 0 <;> simp [whole, isZero, next?, afterWhole?, noDigit, noPoint,
      isMark]
  | some digits => simp [next?, noDigit, isMark]

private theorem next?_mark_digit {c : Char} (isDigit : c.isDigit = true) :
    mark.next? c = some exponent := by
  have noSign : ¬(c = '+' ∨ c = '-') := by rintro (rfl | rfl) <;> simp at isDigit
  simp [next?, noSign, value?_of_isDigit isDigit]

private theorem foldlM_exponent (negative : Bool) (n : Nat) (fraction : Option WrittenDigits)
    (exponent : Option WrittenExponent) :
    (WrittenNumber.exponentChars exponent).foldlM next?
      (WrittenNumber.numeral ⟨negative, n, fraction, none⟩) =
        some (WrittenNumber.numeral ⟨negative, n, fraction, exponent⟩) := by
  cases exponent with
  | none => rfl
  | some exponent =>
      obtain ⟨mark, isMark, sign, isSign, digits⟩ := exponent
      have onward (c : Char) (isDigit : c.isDigit = true) :
          Numeral.exponent.next? c = some .exponent := by
        simp [next?, value?_of_isDigit isDigit]
      rw [WrittenNumber.exponentChars, List.foldlM_cons, next?_mark isMark,
        WrittenNumber.numeral_exponent]
      cases sign with
      | none => exact foldlM_digits (fun c isDigit => next?_mark_digit isDigit) onward digits
      | some sign =>
          have signed : Numeral.mark.next? sign = some markSign := by
            simp [next?, isSign sign rfl]
          change (sign :: digits.chars).foldlM next? Numeral.mark = _
          rw [List.foldlM_cons, signed]
          refine foldlM_digits (fun c isDigit => ?_) onward digits
          simp [next?, value?_of_isDigit isDigit]

/-- Every number of the grammar is recognised. -/
theorem ofChars?_chars (number : WrittenNumber) :
    ofChars? number.chars = some number.numeral := by
  obtain ⟨negative, n, fraction, exponent⟩ := number
  have nonempty : WrittenNumber.wholeChars negative n ≠ [] := by
    simp [WrittenNumber.wholeChars, Nat.toDigits_ne_nil]
  rw [WrittenNumber.chars, ofChars?_append (by simp [nonempty]), ofChars?_append nonempty,
    ofChars?_wholeChars, Option.bind_some, foldlM_fraction, Option.bind_some, foldlM_exponent]

/-! ## Nothing else is recognised -/

/-- How far the recogniser is into a number of the grammar. -/
inductive Reached : Numeral → List Char → Prop
  | sign : Reached .sign ['-']
  | written (number : WrittenNumber) : Reached number.numeral number.chars
  | point (negative : Bool) (n : Nat) :
      Reached .point (WrittenNumber.wholeChars negative n ++ ['.'])
  | mark (negative : Bool) (n : Nat) (fraction : Option WrittenDigits) {mark : Char}
      (isMark : mark = 'e' ∨ mark = 'E') :
      Reached .mark (WrittenNumber.wholeChars negative n ++
        WrittenNumber.fractionChars fraction ++ [mark])
  | markSign (negative : Bool) (n : Nat) (fraction : Option WrittenDigits) {mark sign : Char}
      (isMark : mark = 'e' ∨ mark = 'E') (isSign : sign = '+' ∨ sign = '-') :
      Reached .markSign (WrittenNumber.wholeChars negative n ++
        WrittenNumber.fractionChars fraction ++ [mark, sign])

/-- A single digit. -/
private def lone (c : Char) (isDigit : c.isDigit = true) : WrittenDigits :=
  ⟨[c], by simp, by simpa using isDigit⟩

private def more (digits : WrittenDigits) (c : Char) (isDigit : c.isDigit = true) :
    WrittenDigits where
  chars := digits.chars ++ [c]
  nonempty := by simp
  areDigits other member := by
    rcases List.mem_append.mp member with earlier | last
    · exact digits.areDigits other earlier
    · rwa [List.mem_singleton.mp last]

private theorem isDigit_of_value? {c : Char} (shown : (Digits.value? c).isSome = true) :
    c.isDigit = true := by
  simpa [Digits.value?] using shown

private theorem wholeChars_concat {negative : Bool} {n digit : Nat} (positive : 0 < n)
    (small : digit < 10) :
    WrittenNumber.wholeChars negative (10 * n + digit) =
      WrittenNumber.wholeChars negative n ++ [digit.digitChar] := by
  rw [WrittenNumber.wholeChars, ← Nat.toDigits_append_toDigits (by decide) positive small,
    Nat.toDigits_of_lt_base small, ← List.append_assoc]
  rfl

namespace Reached

private theorem whole (negative : Bool) (n : Nat) :
    Reached (.whole negative n) (WrittenNumber.wholeChars negative n) := by
  simpa using written ⟨negative, n, none, none⟩

private theorem exists_digitChar {c : Char} {zero numeral : Numeral} {view : Nat → Numeral}
    (goesOn : (if c = '0' then some zero else (Digits.value? c).map view) = some numeral) :
    ∃ digit < 10, digit.digitChar = c := by
  by_cases isZero : c = '0'
  · exact ⟨0, by decide, isZero.symm⟩
  · rw [if_neg isZero, Option.map_eq_some_iff] at goesOn
    obtain ⟨digit, shown, -⟩ := goesOn
    exact ⟨digit, Digits.value?_eq_some_iff.mp shown⟩

private theorem start? {c : Char} {numeral : Numeral} (starts : Numeral.start? c = some numeral) :
    Reached numeral [c] := by
  by_cases isMinus : c = '-'
  · subst isMinus
    obtain rfl : Numeral.sign = numeral := by simpa [Numeral.start?] using starts
    exact sign
  · have goesOn := starts
    rw [Numeral.start?, if_neg isMinus] at goesOn
    obtain ⟨digit, small, rfl⟩ := exists_digitChar goesOn
    rw [start?_digitChar small, Option.some.injEq] at starts
    rw [← starts]
    simpa [WrittenNumber.wholeChars, Nat.toDigits_of_lt_base small] using whole false digit

private theorem next?_sign {c : Char} {longer : Numeral}
    (goesOn : Numeral.sign.next? c = some longer) : Reached longer ['-', c] := by
  obtain ⟨digit, small, rfl⟩ := exists_digitChar goesOn
  rw [Numeral.next?_sign small, Option.some.injEq] at goesOn
  rw [← goesOn]
  simpa [WrittenNumber.wholeChars, Nat.toDigits_of_lt_base small] using whole true digit

private theorem afterWhole? {c : Char} {longer : Numeral} {negative : Bool} {n : Nat}
    (goesOn : afterWhole? c = some longer) :
    Reached longer (WrittenNumber.wholeChars negative n ++ [c]) := by
  unfold Numeral.afterWhole? at goesOn
  split at goesOn
  · rename_i isPoint
    cases goesOn
    rw [isPoint]
    exact .point negative n
  · split at goesOn
    · rename_i isMark
      cases goesOn
      simpa [WrittenNumber.fractionChars] using mark negative n none isMark
    · cases goesOn

private theorem next?_whole {c : Char} {longer : Numeral} {negative : Bool} {n : Nat}
    (goesOn : (Numeral.whole negative n).next? c = some longer) :
    Reached longer (WrittenNumber.wholeChars negative n ++ [c]) := by
  by_cases isZero : n = 0
  · subst isZero
    exact afterWhole? goesOn
  · cases shown : Digits.value? c with
    | none =>
        simp only [Numeral.whole, isZero, if_false, Numeral.next?, shown] at goesOn
        exact afterWhole? goesOn
    | some digit =>
        obtain ⟨small, rfl⟩ := Digits.value?_eq_some_iff.mp shown
        have positive : 0 < n := by omega
        rw [Numeral.next?_whole positive small, Option.some.injEq] at goesOn
        rw [← goesOn, ← wholeChars_concat positive small]
        exact whole _ _

private theorem next?_fraction {c : Char} {longer : Numeral} {negative : Bool} {n : Nat}
    {shown : WrittenDigits} (goesOn : Numeral.fraction.next? c = some longer) :
    Reached longer (WrittenNumber.chars ⟨negative, n, some shown, none⟩ ++ [c]) := by
  simp only [Numeral.next?] at goesOn
  split at goesOn
  · rename_i isDigit
    cases goesOn
    have extended := written ⟨negative, n, some (more shown c (isDigit_of_value? isDigit)), none⟩
    simpa [more] using extended
  · split at goesOn
    · rename_i isMark
      cases goesOn
      simpa [WrittenNumber.fractionChars] using mark negative n (some shown) isMark
    · cases goesOn

/-- What the recogniser goes on with goes on as the grammar says. -/
theorem next? {numeral longer : Numeral} {chars : List Char} {c : Char}
    (reached : Reached numeral chars) (goesOn : numeral.next? c = some longer) :
    Reached longer (chars ++ [c]) := by
  -- All states but those of the whole part and the fraction go on with digits to just one.
  have digit_of {next : Numeral} (onward : (Digits.value? c).map (fun _ => next) = some longer) :
      ∃ isDigit : c.isDigit = true, longer = next := by
    obtain ⟨digit, shown, same⟩ := Option.map_eq_some_iff.mp onward
    exact ⟨isDigit_of_value? (by simp [shown]), same.symm⟩
  cases reached with
  | sign => exact next?_sign goesOn
  | written number =>
      obtain ⟨negative, n, fraction, exponent⟩ := number
      match fraction, exponent with
      | none, none =>
          simpa using next?_whole goesOn
      | some shown, none => exact next?_fraction goesOn
      | fraction, some exponent =>
          obtain ⟨isDigit, rfl⟩ := digit_of goesOn
          have extended := written ⟨negative, n, fraction,
            some { exponent with digits := more exponent.digits c isDigit }⟩
          simpa [more] using extended
  | point negative n =>
      obtain ⟨isDigit, rfl⟩ := digit_of goesOn
      simpa [lone] using written ⟨negative, n, some (lone c isDigit), none⟩
  | @mark negative n fraction mark isMark =>
      simp only [Numeral.next?] at goesOn
      split at goesOn
      · rename_i isSign
        cases goesOn
        simpa using markSign negative n fraction isMark isSign
      · obtain ⟨isDigit, rfl⟩ := digit_of goesOn
        simpa [lone] using
          written ⟨negative, n, fraction, some ⟨mark, isMark, none, by simp, lone c isDigit⟩⟩
  | @markSign negative n fraction mark sign isMark isSign =>
      obtain ⟨isDigit, rfl⟩ := digit_of goesOn
      simpa [lone] using
        written ⟨negative, n, fraction,
          some ⟨mark, isMark, some sign, by simpa using isSign, lone c isDigit⟩⟩

private theorem foldlM {rest : List Char} {numeral last : Numeral} {chars : List Char}
    (reached : Reached numeral chars) (goesOn : rest.foldlM Numeral.next? numeral = some last) :
    Reached last (chars ++ rest) := by
  induction rest generalizing numeral chars with
  | nil =>
      obtain rfl : numeral = last := by simpa using goesOn
      simpa using reached
  | cons c rest ih =>
      rw [List.foldlM_cons] at goesOn
      obtain ⟨longer, onward, goesOn⟩ := Option.bind_eq_some_iff.mp goesOn
      simpa using ih (reached.next? onward) goesOn

end Reached

/-- What is recognised is a number of the grammar as far as it goes. -/
theorem reached_of_ofChars? {chars : List Char} {numeral : Numeral}
    (spelled : ofChars? chars = some numeral) : Reached numeral chars := by
  cases chars with
  | nil => simp [ofChars?] at spelled
  | cons c rest =>
      obtain ⟨first, starts, goesOn⟩ := Option.bind_eq_some_iff.mp spelled
      exact (Reached.start? starts).foldlM goesOn

end Numeral

namespace WrittenNumber

theorem isOther_numeral (number : WrittenNumber) :
    number.numeral.isOther = !number.isNatural := by
  obtain ⟨negative, n, fraction, exponent⟩ := number
  match fraction, exponent with
  | none, none =>
      by_cases isZero : n = 0 <;> simp [Numeral.whole, isZero, Numeral.isOther, isNatural]
  | some _, none => simp [Numeral.isOther, isNatural]
  | fraction, some _ => simp [Numeral.isOther, isNatural]

theorem natural?_numeral (number : WrittenNumber) :
    number.numeral.natural? = if number.isNatural then some number.whole else none := by
  obtain ⟨negative, n, fraction, exponent⟩ := number
  match fraction, exponent with
  | none, none =>
      by_cases isZero : n = 0 <;> cases negative <;>
        simp [Numeral.whole, isZero, Numeral.natural?, isNatural]
  | some _, none => simp [Numeral.natural?, isNatural]
  | fraction, some _ => simp [Numeral.natural?, isNatural]

theorem valid (number : WrittenNumber) (other : number.isNatural = false) :
    (Numeral.ofChars? number.chars).any Numeral.isOther = true := by
  simp [Numeral.ofChars?_chars, isOther_numeral, other]

/-- The token that the number is spelled as. -/
def token (number : WrittenNumber) : Token :=
  if other : number.isNatural = false then .otherNumber ⟨number.chars, number.valid other⟩
  else .natural number.whole

end WrittenNumber

/-- Numbers that are known by their spelling are those of the grammar with more than digits. -/
theorem OtherNumber.exists_written (number : OtherNumber) :
    ∃ written : WrittenNumber, written.chars = number.spelling ∧
      written.token = .otherNumber number := by
  obtain ⟨spelling, valid⟩ := number
  obtain ⟨numeral, spelled, isOther⟩ := (Option.any_eq_true _ _).mp valid
  cases Numeral.reached_of_ofChars? spelled with
  | written number =>
      have other : number.isNatural = false := by
        simpa [number.isOther_numeral] using isOther
      exact ⟨number, rfl, by simp [WrittenNumber.token, other]⟩
  | sign | point | mark | markSign => cases isOther

end ReactiveReach.Json
