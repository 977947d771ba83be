import Mathlib.Control.Basic
import Mathlib.Data.Option.Basic
import ReactiveReach.Instant.Text
import ReactiveReach.Proofs.Digits

/-!
# Reading back written instants

The written form of an instant has a fixed count of digits in each place but the fraction, so what
is read of each part ends where that part was written.
-/

namespace ReactiveReach.Instant

private theorem not_blank_of_isDigit {c : Char} (digit : c.isDigit = true) : isBlank c = false := by
  have bounds : 48 ≤ c.toNat ∧ c.toNat ≤ 57 := by
    simpa [Char.isDigit, UInt32.le_iff_toNat_le] using digit
  simp only [isBlank, blankRanges, List.any_cons, List.any_nil, Bool.or_false,
    Bool.or_eq_false_iff, Bool.and_eq_false_iff, decide_eq_false_iff_not]
  omega

private theorem skipBlanks_of_not_blank {c : Char} (visible : isBlank c = false)
    (rest : List Char) : skipBlanks (c :: rest) = c :: rest := by
  simp [skipBlanks, visible]

/-- Digits are read up to the given count of them, or up to what is no digit. -/
private theorem digits?_append {width : Nat} {digits rest : List Char}
    (areDigits : ∀ c ∈ digits, c.isDigit = true) (nonempty : digits ≠ [])
    (short : digits.length ≤ width)
    (ends : digits.length < width → ∀ c ∈ rest.head?, c.isDigit = false) :
    digits? width (digits ++ rest) = some (digits, rest) := by
  have noMore : (rest.take (width - digits.length)).takeWhile Char.isDigit = [] := by
    rcases Nat.lt_or_ge digits.length width with shorter | full
    · cases rest with
      | nil => simp
      | cons c rest =>
          obtain ⟨left, leftEq⟩ : ∃ left, width - digits.length = left + 1 :=
            ⟨width - digits.length - 1, by omega⟩
          simp [leftEq, ends shorter c rfl]
    · simp [Nat.sub_eq_zero_of_le full]
  have taken : ((digits ++ rest).take width).takeWhile Char.isDigit = digits := by
    rw [List.take_append, List.take_of_length_le short, List.takeWhile_append_of_pos areDigits,
      noMore, List.append_nil]
  unfold digits?
  rw [taken]
  cases digits with
  | nil => exact absurd rfl nonempty
  | cons c digits => simp

private theorem padded_eq_cons {width : Nat} (positive : 0 < width) (n : Nat) :
    ∃ first rest, Digits.padded width n = first :: rest ∧ first.isDigit = true := by
  cases written : Digits.padded width n with
  | nil =>
      have length := Digits.length_padded width n
      rw [written, List.length_nil] at length
      omega
  | cons first rest =>
      exact ⟨first, rest, rfl, Digits.isDigit_of_mem_padded (written ▸ List.mem_cons_self)⟩

private theorem skipBlanks_padded {width : Nat} (positive : 0 < width) (n : Nat)
    (rest : List Char) :
    skipBlanks (Digits.padded width n ++ rest) = Digits.padded width n ++ rest := by
  obtain ⟨first, others, written, digit⟩ := padded_eq_cons positive n
  rw [written, List.cons_append, skipBlanks_of_not_blank (not_blank_of_isDigit digit)]

private theorem digits?_padded {width : Nat} (positive : 0 < width) (n : Nat)
    (rest : List Char) :
    digits? width (Digits.padded width n ++ rest) = some (Digits.padded width n, rest) := by
  have length := Digits.length_padded width n
  refine digits?_append (fun c => Digits.isDigit_of_mem_padded) ?_ (Nat.le_of_eq length)
    (by omega)
  exact List.ne_nil_of_length_pos (by omega)

private theorem number?_padded {width n : Nat} (positive : 0 < width) (fits : n < 10 ^ width)
    (rest : List Char) : number? width (Digits.padded width n ++ rest) = some (n, rest) := by
  simp [number?, skipBlanks_padded positive, digits?_padded positive,
    Digits.ofDigitChars_padded_of_lt fits]

private theorem mark?_self {c : Char} (visible : isBlank c = false) (rest : List Char) :
    mark? c (c :: rest) = some rest := by
  simp [mark?, skipBlanks_of_not_blank visible]

private theorem year?_padded {year : Int} (lower : 0 ≤ year) (upper : year ≤ 9999)
    (rest : List Char) :
    year? (Digits.padded 4 year.toNat ++ rest) = some (year, rest) := by
  have fits : year.toNat < 10 ^ 4 := by omega
  have read := digits?_padded (by decide : 0 < 4) year.toNat rest
  have value := Digits.ofDigitChars_padded_of_lt fits
  have start := skipBlanks_padded (by decide : 0 < 4) year.toNat rest
  obtain ⟨first, others, written, digit⟩ := padded_eq_cons (by decide : 0 < 4) year.toNat
  have noMinus : first ≠ '-' := by rintro rfl; simp at digit
  have noPlus : first ≠ '+' := by rintro rfl; simp at digit
  rw [written, List.cons_append] at start read
  rw [written] at value
  rw [written, List.cons_append]
  unfold year?
  rw [start]
  -- The first two branches are those of a sign.
  split
  · rename_i signed
    exact absurd (List.cons.inj signed).1 noMinus
  · rename_i signed
    exact absurd (List.cons.inj signed).1 noPlus
  · simp [read, value, Int.max_eq_left lower]

/-- A fraction is read back, however many of its digits were written. -/
private theorem fraction?_of_written (width : Nat) {nanosecond : Nat} {rest : List Char}
    (positive : 0 < width) (short : width ≤ 9) (exact : nanosecond % 10 ^ (9 - width) = 0)
    (small : nanosecond < 10 ^ 9) (ends : ∀ c ∈ rest.head?, c.isDigit = false) :
    fraction? ('.' :: (Digits.padded width (nanosecond / 10 ^ (9 - width)) ++ rest)) =
      some (nanosecond, rest) := by
  have length := Digits.length_padded width (nanosecond / 10 ^ (9 - width))
  have fits : nanosecond / 10 ^ (9 - width) < 10 ^ width := by
    rw [Nat.div_lt_iff_lt_mul (Nat.pow_pos (by decide)), ← Nat.pow_add]
    rwa [Nat.add_sub_of_le short]
  have read : digits? 9 (Digits.padded width (nanosecond / 10 ^ (9 - width)) ++ rest) =
      some (Digits.padded width (nanosecond / 10 ^ (9 - width)), rest) :=
    digits?_append (fun c => Digits.isDigit_of_mem_padded)
      (List.ne_nil_of_length_pos (by omega)) (by omega) fun _ => ends
  have value : Nat.ofDigitChars 10
      ((Digits.padded width (nanosecond / 10 ^ (9 - width))).rightpad 9 '0') 0 = nanosecond := by
    rw [List.rightpad, length, Nat.ofDigitChars_append, Nat.ofDigitChars_replicate_zero,
      Digits.ofDigitChars_padded_of_lt fits]
    exact Nat.mul_div_cancel' (Nat.dvd_of_mod_eq_zero exact)
  have nothingDropped : rest.dropWhile Char.isDigit = rest := by
    cases rest with
    | nil => rfl
    | cons c rest => simp [ends c rfl]
  simp only [fraction?, read, Option.bind_eq_bind, Option.bind_some, value, nothingDropped,
    Option.pure_def]

private theorem fraction?_fractionChars {nanosecond : Nat} (small : nanosecond < 10 ^ 9)
    (rest : List Char) :
    fraction? (fractionChars nanosecond ++ 'Z' :: rest) = some (nanosecond, 'Z' :: rest) := by
  have ends : ∀ c ∈ ('Z' :: rest).head?, c.isDigit = false := by simp
  unfold fractionChars
  split
  · rename_i isZero
    rw [isZero]
    rfl
  · split
    · rename_i threeDigits
      exact fraction?_of_written 3 (by decide) (by decide) threeDigits small ends
    · split
      · rename_i sixDigits
        exact fraction?_of_written 6 (by decide) (by decide) sixDigits small ends
      · simpa using
          fraction?_of_written 9 (by decide) (by decide) (Nat.mod_one nanosecond) small ends

private theorem isReadableYear_of_bounds {year : Int} (lower : 0 ≤ year) (upper : year ≤ 9999) :
    isReadableYear year = true := by
  simp only [isReadableYear, Bool.and_eq_true, decide_eq_true_eq]
  omega

private theorem daysIn_le (year : Int) (month : Nat) : daysIn year month ≤ 31 := by
  unfold daysIn
  repeat' split
  all_goals omega

private theorem date?_chars {date : Date} (lower : 0 ≤ date.year) (upper : date.year ≤ 9999)
    (rest : List Char) :
    date? (Digits.padded 4 date.year.toNat ++ '-' :: (Digits.padded 2 date.month ++
      '-' :: (Digits.padded 2 date.day ++ rest))) = some (date, rest) := by
  have monthValid := date.month_valid
  have dayValid := date.day_valid
  have atMost := daysIn_le date.year date.month
  have readable := isReadableYear_of_bounds lower upper
  have isDate : Date.ofParts? date.year date.month date.day = some date := by
    simp [Date.ofParts?, monthValid, dayValid]
  simp [date?, year?_padded lower upper, mark?_self (c := '-') rfl,
    number?_padded (by decide : 0 < 2) (by omega : date.month < 10 ^ 2),
    number?_padded (by decide : 0 < 2) (by omega : date.day < 10 ^ 2), readable, isDate]

private theorem time?_chars (time : TimeOfDay) (rest : List Char) :
    time? (Digits.padded 2 time.hour ++ ':' :: (Digits.padded 2 time.minute ++
      ':' :: (Digits.padded 2 time.second ++ (fractionChars time.nanosecond ++ 'Z' :: rest)))) =
      some (time, 'Z' :: rest) := by
  have hourValid := time.hour_lt
  have minuteValid := time.minute_lt
  have secondValid := time.second_le
  have nanosecondValid := time.nanosecond_lt
  have isTime : TimeOfDay.ofParts? time.hour time.minute time.second time.nanosecond =
      some time := by
    simp [TimeOfDay.ofParts?, hourValid, minuteValid, secondValid, nanosecondValid]
  simp [time?, mark?_self (c := ':') rfl,
    number?_padded (by decide : 0 < 2) (by omega : time.hour < 10 ^ 2),
    number?_padded (by decide : 0 < 2) (by omega : time.minute < 10 ^ 2),
    number?_padded (by decide : 0 < 2) (by omega : time.second < 10 ^ 2),
    fraction?_fractionChars nanosecondValid, isTime]

theorem ofLocal_zero (date : Date) (time : TimeOfDay) : ofLocal date time 0 = ⟨date, time⟩ := by
  have hourValid := time.hour_lt
  have minuteValid := time.minute_lt
  have sameDay : ¬ (60 * (time.hour : Int) + time.minute - 0 < 0) := by omega
  have notNextDay : ¬ (1440 ≤ 60 * (time.hour : Int) + time.minute - 0) := by omega
  have minutes : ((60 * (time.hour : Int) + time.minute - 0) % 1440).toNat =
      60 * time.hour + time.minute := by omega
  have hour : (60 * time.hour + time.minute) / 60 = time.hour := by omega
  have minute : (60 * time.hour + time.minute) % 60 = time.minute := by omega
  simp only [ofLocal, sameDay, notNextDay, if_false, minutes, hour, minute]

theorem ofText?_text {instant : Instant} (lower : 0 ≤ instant.date.year)
    (upper : instant.date.year ≤ 9999) : ofText? instant.text = some instant := by
  have readable := isReadableYear_of_bounds lower upper
  have start : skipBlanks ['Z'] = ['Z'] := rfl
  have nothingLeft : skipBlanks [] = [] := rfl
  simp only [ofText?, text, String.toList_ofList, chars, yearChars, lower, upper, and_self,
    if_true, List.append_assoc, List.cons_append]
  simp [ofChars?, date?_chars lower upper, time?_chars, start, zone?, nothingLeft, ofLocal_zero,
    readable]

end ReactiveReach.Instant
