/-
Dart's `DateTime` and its text: `toString` and `tryParse`, on the proleptic
Gregorian calendar. The clock's zone is a constant one (wall time is counted
as UTC is): where an hour is shown twice a year no text of a local time could
be read back.

* `daysFromCivil_civilFromDays`: a day number survives the calendar.
* `tryParse_toString`: a `DateTime`'s text reads back as that `DateTime`.
* `tryParse_of_head`: a text that starts with neither a sign nor a digit is
  no date.
-/
import Mathlib.Algebra.Group.Nat.Defs
import Mathlib.Data.Int.Init
import Sdapk.Dart.Text

namespace Dart

/-- The farthest instant from the epoch, 100 000 000 days, in microseconds. -/
def maxMicroseconds : Nat := 8640000000000000000

/-- An instant in microseconds since the epoch, shown in UTC or in local time. -/
structure DateTime where
  microsecondsSinceEpoch : Int
  isUtc : Bool
  inRange : microsecondsSinceEpoch.natAbs ≤ maxMicroseconds
  deriving DecidableEq

namespace DateTime

/-- A reading of the clock, so many microseconds after the epoch, or the last one. -/
def reading (n : Nat) : DateTime := ⟨(min n maxMicroseconds : Nat), false, Nat.min_le_right n _⟩

/-- `t.isBefore(t')`. -/
def isBefore (t t' : DateTime) : Prop := t.microsecondsSinceEpoch < t'.microsecondsSinceEpoch

instance (t t' : DateTime) : Decidable (t.isBefore t') := inferInstanceAs (Decidable (_ < _))

/-! ## The calendar -/

/-- The months from March to month `m` (from 1 to 12): years run from March
here, so that a leap day ends one. -/
def monthFromMarch (m : Int) : Int := if 2 < m then m - 3 else m + 9

/-- The month `mp` months from March. -/
def monthOfMarch (mp : Int) : Int := if mp < 10 then mp + 3 else mp - 9

/-- Days from the epoch to day `d` of month `m` (from 1 to 12) of year `y`. -/
def daysFromCivil (y m d : Int) : Int :=
  let y := if m ≤ 2 then y - 1 else y
  let doy := (153 * monthFromMarch m + 2) / 5 + d - 1
  y / 400 * 146097 + (y % 400 * 365 + y % 400 / 4 - y % 400 / 100 + doy) - 719468

/-- The year, counted from its era of 400 years, that day `doe` of the era lies in. -/
def yearOfEra (doe : Int) : Int := (doe - doe / 1460 + doe / 36524 - doe / 146096) / 365

/-- The day, counted from 1 March, that day `doe` of the era is. -/
def dayOfYear (doe : Int) : Int :=
  doe - (365 * yearOfEra doe + yearOfEra doe / 4 - yearOfEra doe / 100)

/-- Year, month and day of day `doy` of year `yoe` of an era. -/
def civilOfEra (era yoe doy : Int) : Int × Int × Int :=
  let mp := (5 * doy + 2) / 153
  let m := monthOfMarch mp
  (era * 400 + yoe + (if m ≤ 2 then 1 else 0), m, doy - (153 * mp + 2) / 5 + 1)

/-- Year, month and day of a day counted from the epoch. -/
def civilFromDays (days : Int) : Int × Int × Int :=
  let z := days + 719468
  civilOfEra (z / 146097) (yearOfEra (z % 146097)) (dayOfYear (z % 146097))

theorem yearOfEra_bounds (doe : Int) (h : 0 ≤ doe) (h' : doe < 146097) : 0 ≤ yearOfEra doe ∧ yearOfEra doe ≤ 399 := by
  unfold yearOfEra
  omega

theorem dayOfYear_bounds (doe : Int) (h : 0 ≤ doe) (h' : doe < 146097) : 0 ≤ dayOfYear doe ∧ dayOfYear doe ≤ 365 := by
  have hy := yearOfEra_bounds doe h h'
  unfold dayOfYear
  -- By century of the day and century of the year: then every quotient left is linear.
  have hd : doe / 36524 = 0 ∨ doe / 36524 = 1 ∨ doe / 36524 = 2 ∨ doe / 36524 = 3 ∨ doe / 36524 = 4 := by omega
  have hg : yearOfEra doe / 100 = 0 ∨ yearOfEra doe / 100 = 1 ∨ yearOfEra doe / 100 = 2 ∨
      yearOfEra doe / 100 = 3 := by omega
  unfold yearOfEra at *
  rcases hd with hd | hd | hd | hd | hd <;> rcases hg with hg | hg | hg | hg <;> constructor <;> omega

theorem monthFromMarch_monthOfMarch (mp : Int) (h : 0 ≤ mp) (h' : mp ≤ 11) : monthFromMarch (monthOfMarch mp) = mp := by
  unfold monthFromMarch monthOfMarch
  split <;> split <;> omega

theorem monthOfMarch_bounds {mp : Int} (h : 0 ≤ mp) (h' : mp ≤ 11) : 1 ≤ monthOfMarch mp ∧ monthOfMarch mp ≤ 12 := by
  unfold monthOfMarch
  split <;> omega

theorem civilOfEra_month {era yoe doy : Int} (h : 0 ≤ doy) (h' : doy ≤ 365) :
    1 ≤ (civilOfEra era yoe doy).2.1 ∧ (civilOfEra era yoe doy).2.1 ≤ 12 :=
  monthOfMarch_bounds (by omega) (by omega)

theorem civilOfEra_day {era yoe doy : Int} :
    1 ≤ (civilOfEra era yoe doy).2.2 ∧ (civilOfEra era yoe doy).2.2 ≤ 31 := by
  simp only [civilOfEra]
  omega

theorem daysFromCivil_civilOfEra {era yoe doy : Int} (hy : 0 ≤ yoe) (hy' : yoe ≤ 399) (hd : 0 ≤ doy) (hd' : doy ≤ 365) :
    daysFromCivil (civilOfEra era yoe doy).1 (civilOfEra era yoe doy).2.1 (civilOfEra era yoe doy).2.2 =
      era * 146097 + (yoe * 365 + yoe / 4 - yoe / 100 + doy) - 719468 := by
  have hm := monthFromMarch_monthOfMarch ((5 * doy + 2) / 153) (by omega) (by omega)
  simp only [civilOfEra, daysFromCivil, hm]
  split <;> omega

/-- **A day survives the calendar.** -/
theorem daysFromCivil_civilFromDays (days : Int) :
    daysFromCivil (civilFromDays days).1 (civilFromDays days).2.1 (civilFromDays days).2.2 = days := by
  obtain ⟨hy, hy'⟩ := yearOfEra_bounds ((days + 719468) % 146097) (by omega) (by omega)
  obtain ⟨hd, hd'⟩ := dayOfYear_bounds ((days + 719468) % 146097) (by omega) (by omega)
  rw [civilFromDays, daysFromCivil_civilOfEra hy hy' hd hd']
  unfold dayOfYear
  omega

theorem civilFromDays_month (days : Int) :
    1 ≤ (civilFromDays days).2.1 ∧ (civilFromDays days).2.1 ≤ 12 :=
  have h := dayOfYear_bounds ((days + 719468) % 146097) (by omega) (by omega)
  civilOfEra_month h.1 h.2

theorem civilFromDays_day (days : Int) :
    1 ≤ (civilFromDays days).2.2 ∧ (civilFromDays days).2.2 ≤ 31 := civilOfEra_day

theorem civilFromDays_year (days : Int) (h : days.natAbs ≤ 100000001) :
    (civilFromDays days).1.natAbs < 1000000 := by
  have hyoe := yearOfEra_bounds ((days + 719468) % 146097) (by omega) (by omega)
  simp only [civilFromDays, civilOfEra]
  split <;> omega

/-! ## Text of a `DateTime` -/

/-- `_twoDigits(n)`. -/
def twoDigits (n : Nat) : List Char :=
  if 10 ≤ n then Nat.toDigits 10 n else '0' :: Nat.toDigits 10 n

/-- `_threeDigits(n)`. -/
def threeDigits (n : Nat) : List Char :=
  if 100 ≤ n then Nat.toDigits 10 n
  else if 10 ≤ n then '0' :: Nat.toDigits 10 n
  else '0' :: '0' :: Nat.toDigits 10 n

/-- At least four digits. -/
def atLeastFour (absN : Nat) : List Char :=
  if 1000 ≤ absN then Nat.toDigits 10 absN
  else if 100 ≤ absN then '0' :: Nat.toDigits 10 absN
  else if 10 ≤ absN then '0' :: '0' :: Nat.toDigits 10 absN
  else '0' :: '0' :: '0' :: Nat.toDigits 10 absN

/-- `_fourDigits(n)`: a sign where negative, and at least four digits. -/
def fourDigits (n : Int) : List Char :=
  if n < 0 then '-' :: atLeastFour n.natAbs else atLeastFour n.natAbs

/-- The characters of a time of day in microseconds. -/
def timeChars (us : Nat) (isUtc : Bool) : List Char :=
  twoDigits (us / 3600000000) ++ (':' :: (twoDigits (us / 60000000 % 60) ++ (':' ::
    (twoDigits (us / 1000000 % 60) ++ ('.' :: (threeDigits (us / 1000 % 1000) ++
      (if us % 1000 = 0 then [] else threeDigits (us % 1000)) ++ if isUtc then ['Z'] else []))))))

/-- The characters of `t.toString()`. -/
def chars (t : DateTime) : List Char :=
  let (y, m, d) := civilFromDays (t.microsecondsSinceEpoch / 86400000000)
  fourDigits y ++ ('-' :: (twoDigits m.toNat ++ ('-' :: (twoDigits d.toNat ++ (' ' ::
    timeChars (t.microsecondsSinceEpoch % 86400000000).toNat t.isUtc)))))

/-- `t.toString()`. -/
def toString (t : DateTime) : String := String.ofList t.chars

/-! ## `DateTime.tryParse` -/

/-- The instant of broken-down fields, where it is in range. A month outside
the year, and any other field outside its range, carries over. -/
def ofFields (y mo d h mi s us : Int) (isUtc : Bool) : Option DateTime :=
  let days := daysFromCivil (y + (mo - 1) / 12) ((mo - 1) % 12 + 1) d
  let v := (((days * 24 + h) * 60 + mi) * 60 + s) * 1000000 + us
  if hv : v.natAbs ≤ maxMicroseconds then some ⟨v, isUtc, hv⟩ else none

/-- `n` digits, and what follows them. -/
def readDigits (n : Nat) (cs : List Char) : Option (Nat × List Char) :=
  if (cs.take n).length = n ∧ (cs.take n).all Char.isDigit then
    some (Nat.ofDigitChars 10 (cs.take n) 0, cs.drop n)
  else none

/-- The text after one `c`, or the text where it does not start with `c`. -/
def skipChar (c : Char) : List Char → List Char
  | a :: cs => if a = c then cs else a :: cs
  | [] => []

/-- An offset of hours and minutes from UTC, at the end of the text. -/
def readOffset (cs : List Char) : Option Int := do
  let (h, cs) ← readDigits 2 cs
  if cs = [] then return h * 60
  let (m, cs) ← readDigits 2 (skipChar ':' cs)
  if cs = [] then return h * 60 + m else none

/-- The zone at the end of the text: none (local time), `Z`, or an offset. -/
def readZone (cs : List Char) : Option (Bool × Int) :=
  if cs = [] then some (false, 0) else
    match skipChar ' ' cs with
    | ['z'] | ['Z'] => some (true, 0)
    | '+' :: cs => (readOffset cs).map fun o => (true, o)
    | '-' :: cs => (readOffset cs).map fun o => (true, -o)
    | _ => none

/-- The microseconds of a fraction of a second: its first six digits. -/
def fraction (ds : List Char) : Nat :=
  Nat.ofDigitChars 10 (ds.take 6) 0 * 10 ^ (6 - (ds.take 6).length)

/-- A fraction of a second, where there is one. -/
def readFraction : List Char → Nat × List Char
  | c :: cs =>
    if (c = '.' ∨ c = ',') ∧ cs.takeWhile Char.isDigit ≠ [] then
      (fraction (cs.takeWhile Char.isDigit), cs.dropWhile Char.isDigit)
    else (0, c :: cs)
  | [] => (0, [])

/-- Seconds and microseconds, where there are any. -/
def readSeconds (cs : List Char) : Nat × Nat × List Char :=
  match readDigits 2 (skipChar ':' cs) with
  | some (s, cs) => (s, readFraction cs)
  | none => (0, 0, cs)

/-- Minutes, seconds and microseconds, where there are any. -/
def readMinutes (cs : List Char) : Nat × Nat × Nat × List Char :=
  match readDigits 2 (skipChar ':' cs) with
  | some (m, cs) => (m, readSeconds cs)
  | none => (0, 0, 0, cs)

/-- The text after the year: month, day, and a time of day where there is one. -/
def readAfterYear (y : Int) (cs : List Char) : Option DateTime := do
  let (mo, cs) ← readDigits 2 (skipChar '-' cs)
  let (d, cs) ← readDigits 2 (skipChar '-' cs)
  match cs with
  | [] => ofFields y mo d 0 0 0 0 false
  | c :: cs =>
    if c = ' ' ∨ c = 'T' then
      let (h, cs) ← readDigits 2 cs
      let (mi, s, us, cs) := readMinutes cs
      let (isUtc, offset) ← readZone cs
      ofFields y mo d h (mi - offset) s us isUtc
    else none

/-- A date whose year has `n` digits. -/
def readYear (n : Nat) (sign : Int) (cs : List Char) : Option DateTime := do
  let (y, cs) ← readDigits n cs
  readAfterYear (sign * y) cs

/-- A date whose year has six digits, five, or four: the first that fits. -/
def readDate (sign : Int) (cs : List Char) : Option DateTime :=
  readYear 6 sign cs <|> readYear 5 sign cs <|> readYear 4 sign cs

/-- A date, its year with a sign or without. -/
def readSigned : List Char → Option DateTime
  | '-' :: cs => readDate (-1) cs
  | '+' :: cs => readDate 1 cs
  | cs => readDate 1 cs

/-- `DateTime.tryParse(s)`. -/
def tryParse (s : String) : Option DateTime := readSigned s.toList

/-! ## Numerals of a fixed width -/

/-- `cs` is `n` written with `k` digits. -/
structure Numeral (k n : Nat) (cs : List Char) : Prop where
  length : cs.length = k
  digits : ∀ c ∈ cs, c.isDigit = true
  value : Nat.ofDigitChars 10 cs 0 = n

theorem Numeral.toDigits {k n : Nat} (h : (Nat.toDigits 10 n).length = k) : Numeral k n (Nat.toDigits 10 n) :=
  ⟨h, digits_of_toDigits, Nat.ofDigitChars_ten_toDigits⟩

theorem Numeral.zero {k n : Nat} {cs : List Char} (h : Numeral k n cs) : Numeral (k + 1) n ('0' :: cs) where
  length := by simp [h.length]
  digits c hc := by
    rcases List.mem_cons.1 hc with rfl | hc
    · rfl
    · exact h.digits c hc
  value := by simp [Nat.ofDigitChars_cons, h.value]

theorem Numeral.append {k k' n n' : Nat} {cs cs' : List Char} (h : Numeral k n cs) (h' : Numeral k' n' cs') :
    Numeral (k + k') (10 ^ k' * n + n') (cs ++ cs') where
  length := by simp [h.length, h'.length]
  digits c hc := (List.mem_append.1 hc).elim (h.digits c) (h'.digits c)
  value := by
    rw [Nat.ofDigitChars_append, h.value, Nat.ofDigitChars_eq_ofDigitChars_zero, h'.length, h'.value]

theorem twoDigits_numeral {n : Nat} (h : n < 100) : Numeral 2 n (twoDigits n) := by
  have h₁ := Nat.length_toDigits_le_iff (b := 10) (n := n) (k := 1) (by decide) (by decide)
  have h₂ := Nat.length_toDigits_le_iff (b := 10) (n := n) (k := 2) (by decide) (by decide)
  have hpos := Nat.length_toDigits_pos (b := 10) (n := n)
  unfold twoDigits
  split
  · exact .toDigits (by omega)
  · exact (Numeral.toDigits (by omega)).zero

theorem threeDigits_numeral {n : Nat} (h : n < 1000) : Numeral 3 n (threeDigits n) := by
  have h₁ := Nat.length_toDigits_le_iff (b := 10) (n := n) (k := 1) (by decide) (by decide)
  have h₂ := Nat.length_toDigits_le_iff (b := 10) (n := n) (k := 2) (by decide) (by decide)
  have h₃ := Nat.length_toDigits_le_iff (b := 10) (n := n) (k := 3) (by decide) (by decide)
  have hpos := Nat.length_toDigits_pos (b := 10) (n := n)
  unfold threeDigits
  split
  · exact .toDigits (by omega)
  split
  · exact (Numeral.toDigits (by omega)).zero
  · exact (Numeral.toDigits (by omega)).zero.zero

/-- A year's digits: four, five or six of them. -/
theorem atLeastFour_numeral {n : Nat} (h : n < 1000000) :
    ∃ k, 4 ≤ k ∧ k ≤ 6 ∧ Numeral k n (atLeastFour n) := by
  have h₁ := Nat.length_toDigits_le_iff (b := 10) (n := n) (k := 1) (by decide) (by decide)
  have h₂ := Nat.length_toDigits_le_iff (b := 10) (n := n) (k := 2) (by decide) (by decide)
  have h₃ := Nat.length_toDigits_le_iff (b := 10) (n := n) (k := 3) (by decide) (by decide)
  have h₆ := Nat.length_toDigits_le_iff (b := 10) (n := n) (k := 6) (by decide) (by decide)
  have hpos := Nat.length_toDigits_pos (b := 10) (n := n)
  unfold atLeastFour
  split
  · exact ⟨_, by omega, by omega, .toDigits rfl⟩
  split
  · exact ⟨4, by omega, by omega, (Numeral.toDigits (by omega)).zero⟩
  split
  · exact ⟨4, by omega, by omega, (Numeral.toDigits (by omega)).zero.zero⟩
  · exact ⟨4, by omega, by omega, (Numeral.toDigits (by omega)).zero.zero.zero⟩

/-! ## Reading back what was written -/

theorem readDigits_numeral {k n : Nat} {cs rest : List Char} (h : Numeral k n cs) :
    readDigits k (cs ++ rest) = some (n, rest) := by
  have ht : (cs ++ rest).take k = cs := by rw [← h.length]; simp
  have hd : (cs ++ rest).drop k = rest := by rw [← h.length]; simp
  unfold readDigits
  rw [ht, hd, if_pos ⟨h.length, List.all_eq_true.2 h.digits⟩, h.value]

/-- A character that is no digit ends the digits too early. -/
theorem readDigits_short {k : Nat} {cs rest : List Char} {c : Char} (h : cs.length < k) (hc : c.isDigit = false) :
    readDigits k (cs ++ c :: rest) = none := by
  refine if_neg fun hall => ?_
  have hmem : c ∈ (cs ++ c :: rest).take k := by
    obtain ⟨j, rfl⟩ : ∃ j, k = cs.length + (j + 1) := ⟨k - cs.length - 1, by omega⟩
    simp [List.take_append]
  exact absurd (List.all_eq_true.1 hall.2 c hmem) (by simp [hc])

theorem readDate_numeral {k n : Nat} {cs rest : List Char} {sign : Int} {t : DateTime} (h₄ : 4 ≤ k) (h₆ : k ≤ 6)
    (h : Numeral k n cs) (hr : readAfterYear (sign * n) ('-' :: rest) = some t) :
    readDate sign (cs ++ '-' :: rest) = some t := by
  have hlen := h.length
  have hyear : readYear k sign (cs ++ '-' :: rest) = some t := by simp [readYear, readDigits_numeral h, hr]
  have hshort : ∀ j, k < j → readYear j sign (cs ++ '-' :: rest) = none := fun j hj => by
    simp [readYear, readDigits_short (hlen ▸ hj) (by decide : '-'.isDigit = false)]
  unfold readDate
  obtain rfl | rfl | rfl : k = 6 ∨ k = 5 ∨ k = 4 := by omega
  · simp [hyear]
  · simp [hyear, hshort]
  · simp [hyear, hshort]

theorem readFraction_digits {cs rest : List Char} (hne : cs ≠ []) (h : ∀ c ∈ cs, c.isDigit = true)
    (hrest : ∀ c ∈ rest.head?, c.isDigit = false) :
    readFraction ('.' :: (cs ++ rest)) = (fraction cs, rest) := by
  have ht : (cs ++ rest).takeWhile Char.isDigit = cs := by
    rw [List.takeWhile_append_of_pos h]
    cases rest with
    | nil => simp
    | cons c rest => simp [hrest c rfl]
  have hd : (cs ++ rest).dropWhile Char.isDigit = rest := by
    rw [List.dropWhile_append_of_pos h]
    cases rest with
    | nil => simp
    | cons c rest => simp [hrest c rfl]
  simp [readFraction, ht, hd, hne]

theorem fraction_three {n : Nat} {cs : List Char} (h : Numeral 3 n cs) : fraction cs = n * 1000 := by
  have ht : cs.take 6 = cs := List.take_of_length_le (by rw [h.length]; decide)
  simp [fraction, ht, h.value, h.length]

theorem fraction_six {n : Nat} {cs : List Char} (h : Numeral 6 n cs) : fraction cs = n := by
  have ht : cs.take 6 = cs := List.take_of_length_le (by rw [h.length])
  simp [fraction, ht, h.value, h.length]

/-- The milliseconds and microseconds written are read. -/
theorem readFraction_timeChars {us : Nat} {isUtc : Bool} :
    readFraction ('.' :: (threeDigits (us / 1000 % 1000) ++
      (if us % 1000 = 0 then [] else threeDigits (us % 1000)) ++ if isUtc then ['Z'] else [])) =
      (us % 1000000, if isUtc then ['Z'] else []) := by
  have hms := threeDigits_numeral (n := us / 1000 % 1000) (by omega)
  have hus := threeDigits_numeral (n := us % 1000) (by omega)
  have hrest : ∀ c ∈ (if isUtc then ['Z'] else []).head?, c.isDigit = false := by cases isUtc <;> simp
  by_cases hz : us % 1000 = 0
  · have hne : threeDigits (us / 1000 % 1000) ≠ [] := List.ne_nil_of_length_pos (by rw [hms.length]; decide)
    rw [if_pos hz, List.append_nil, readFraction_digits hne hms.digits hrest, fraction_three hms]
    exact congrArg (·, _) (by omega)
  · have h6 := hms.append hus
    have hne : threeDigits (us / 1000 % 1000) ++ threeDigits (us % 1000) ≠ [] :=
      List.ne_nil_of_length_pos (by rw [h6.length]; decide)
    rw [if_neg hz, readFraction_digits hne h6.digits hrest, fraction_six h6]
    exact congrArg (·, _) (by omega)

theorem readZone_timeChars {isUtc : Bool} : readZone (if isUtc then ['Z'] else []) = some (isUtc, 0) := by
  cases isUtc <;> rfl

/-- Minutes, seconds and microseconds written are read. -/
theorem readMinutes_timeChars {us : Nat} {isUtc : Bool} :
    readMinutes (':' :: (twoDigits (us / 60000000 % 60) ++ (':' ::
      (twoDigits (us / 1000000 % 60) ++ ('.' :: (threeDigits (us / 1000 % 1000) ++
        (if us % 1000 = 0 then [] else threeDigits (us % 1000)) ++ if isUtc then ['Z'] else [])))))) =
      (us / 60000000 % 60, us / 1000000 % 60, us % 1000000, if isUtc then ['Z'] else []) := by
  have hmi := twoDigits_numeral (n := us / 60000000 % 60) (by omega)
  have hs := twoDigits_numeral (n := us / 1000000 % 60) (by omega)
  simp only [readMinutes, skipChar, if_true, readDigits_numeral hmi, readSeconds, readDigits_numeral hs,
    readFraction_timeChars]

/-- The fields written after the year are read. -/
theorem readAfterYear_chars {y : Int} {mo d us : Nat} {isUtc : Bool} (hmo : mo < 100) (hd : d < 100)
    (hus : us < 86400000000) :
    readAfterYear y ('-' :: (twoDigits mo ++ ('-' :: (twoDigits d ++ (' ' :: timeChars us isUtc))))) =
      ofFields y mo d (us / 3600000000 : Nat) (us / 60000000 % 60 : Nat) (us / 1000000 % 60 : Nat)
        (us % 1000000 : Nat) isUtc := by
  have hh := twoDigits_numeral (n := us / 3600000000) (by omega)
  simp only [readAfterYear, skipChar, if_true, readDigits_numeral (twoDigits_numeral hmo),
    readDigits_numeral (twoDigits_numeral hd), timeChars, readDigits_numeral hh, readMinutes_timeChars,
    readZone_timeChars, Option.bind_eq_bind, Option.bind_some, true_or, Int.sub_zero]

/-- The fields of a `DateTime` are those of its instant. -/
theorem ofFields_eq (t : DateTime) :
    ofFields (civilFromDays (t.microsecondsSinceEpoch / 86400000000)).1
      (civilFromDays (t.microsecondsSinceEpoch / 86400000000)).2.1.toNat
      (civilFromDays (t.microsecondsSinceEpoch / 86400000000)).2.2.toNat
      ((t.microsecondsSinceEpoch % 86400000000).toNat / 3600000000 : Nat)
      ((t.microsecondsSinceEpoch % 86400000000).toNat / 60000000 % 60 : Nat)
      ((t.microsecondsSinceEpoch % 86400000000).toNat / 1000000 % 60 : Nat)
      ((t.microsecondsSinceEpoch % 86400000000).toNat % 1000000 : Nat) t.isUtc = some t := by
  obtain ⟨v, isUtc, hv⟩ := t
  simp only
  have hm := civilFromDays_month (v / 86400000000)
  have hd := civilFromDays_day (v / 86400000000)
  have hcal := daysFromCivil_civilFromDays (v / 86400000000)
  generalize civilFromDays (v / 86400000000) = c at hm hd hcal
  obtain ⟨y, mo, d⟩ := c
  simp only at hm hd hcal
  have hmo : ((mo.toNat : Int) - 1) / 12 = 0 ∧ ((mo.toNat : Int) - 1) % 12 + 1 = mo := by omega
  have hdn : (d.toNat : Int) = d := by omega
  have hdays : daysFromCivil (y + ((mo.toNat : Int) - 1) / 12) (((mo.toNat : Int) - 1) % 12 + 1) d.toNat =
      v / 86400000000 := by rw [hmo.1, hmo.2, hdn, Int.add_zero, hcal]
  have hval : (((v / 86400000000 * 24 + ((v % 86400000000).toNat / 3600000000 : Nat)) * 60 +
      ((v % 86400000000).toNat / 60000000 % 60 : Nat)) * 60 + ((v % 86400000000).toNat / 1000000 % 60 : Nat)) * 1000000 +
      ((v % 86400000000).toNat % 1000000 : Nat) = v := by omega
  unfold ofFields
  simp only [hdays, hval, hv, dite_true]

/-- A text that starts with no sign is read as it stands. -/
theorem readSigned_of_head {c : Char} {cs : List Char} (hm : c ≠ '-') (hp : c ≠ '+') :
    readSigned (c :: cs) = readDate 1 (c :: cs) := by
  unfold readSigned
  split
  · next h => exact absurd (List.cons.inj h).1 hm
  · next h => exact absurd (List.cons.inj h).1 hp
  · rfl

theorem readSigned_of_digits {k n : Nat} {cs rest : List Char} (hk : 0 < k) (h : Numeral k n cs) :
    readSigned (cs ++ rest) = readDate 1 (cs ++ rest) := by
  obtain ⟨c, cs, rfl⟩ := List.exists_cons_of_length_pos (h.length ▸ hk)
  have hc := h.digits c List.mem_cons_self
  exact readSigned_of_head (fun he => by simp [he] at hc) (fun he => by simp [he] at hc)

/-- **A `DateTime`'s text reads back as that `DateTime`.** -/
theorem tryParse_toString (t : DateTime) : tryParse t.toString = some t := by
  have hm := civilFromDays_month (t.microsecondsSinceEpoch / 86400000000)
  have hd := civilFromDays_day (t.microsecondsSinceEpoch / 86400000000)
  have hr := t.inRange
  unfold maxMicroseconds at hr
  have hy := civilFromDays_year (t.microsecondsSinceEpoch / 86400000000) (by omega)
  have hf := ofFields_eq t
  rw [tryParse, toString, String.toList_ofList]
  simp only [chars, fourDigits]
  generalize civilFromDays (t.microsecondsSinceEpoch / 86400000000) = c at hm hd hy hf
  obtain ⟨y, mo, d⟩ := c
  simp only at hm hd hy hf ⊢
  obtain ⟨k, h₄, h₆, hk⟩ := atLeastFour_numeral hy
  rw [← readAfterYear_chars (by omega) (by omega) (by omega)] at hf
  by_cases hneg : y < 0
  · rw [if_pos hneg, List.cons_append]
    have hyn : -1 * (y.natAbs : Int) = y := by omega
    exact readDate_numeral h₄ h₆ hk (hyn.symm ▸ hf)
  · rw [if_neg hneg]
    have hyn : 1 * (y.natAbs : Int) = y := by omega
    rw [readSigned_of_digits (by omega) hk]
    exact readDate_numeral h₄ h₆ hk (hyn.symm ▸ hf)

/-- A text that starts with neither a sign nor a digit is no date. -/
theorem tryParse_of_head {s : String} {c : Char} {cs : List Char} (hs : s.toList = c :: cs)
    (hm : c ≠ '-') (hp : c ≠ '+') (hd : c.isDigit = false) : tryParse s = none := by
  have h : ∀ k sign, 0 < k → readYear k sign (c :: cs) = none := fun k sign hk => by
    have hread := @readDigits_short k [] cs c hk hd
    rw [List.nil_append] at hread
    simp [readYear, hread]
  rw [tryParse, hs, readSigned_of_head hm hp]
  simp [readDate, h]

end DateTime

end Dart
