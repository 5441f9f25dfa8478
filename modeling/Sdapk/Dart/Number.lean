/-
Numbers in Dart as a program that reads them from text needs them:
`num.tryParse`, which looks for an `int` of 64 bits and, where there is none,
for a `double`; and the comparison of what it finds with an integer.

* `tryParseNum_repr`: the text of a 64-bit integer reads as that integer.
* `tryParseNum_of_head`: a text that starts, after white space, with nothing
  that starts a number reads as none.
-/
import Sdapk.Dart.Text

namespace Dart

/-- A `num`. -/
inductive Num
  | int (i : Int)
  | double (x : Float.Model)

/-- `x > n`. No double that is no number is greater than one. -/
def Num.isGreater (n : Int) : Num → Bool
  | .int i => n < i
  | .double x => Float.Model.ofInt n < x

/-! ## `int.tryParse` -/

/-- A literal with `0x` in front of its digits, and no minus sign. -/
def isUnsignedHex : List Char → Bool
  | '0' :: 'x' :: _ | '0' :: 'X' :: _ | '+' :: '0' :: 'x' :: _ | '+' :: '0' :: 'X' :: _ => true
  | _ => false

/-- An integer of 64 bits: a hexadecimal literal may also give the bits of a negative one. -/
def int64? (cs : List Char) : Option Int :=
  match signed? cs with
  | none => none
  | some i =>
    if -0x8000000000000000 ≤ i ∧ i < 0x8000000000000000 then some i
    else if isUnsignedHex cs ∧ i < 0x10000000000000000 then some (i - 0x10000000000000000)
    else none

/-! ## `double.tryParse` -/

/-- The value of decimal digits, a sign or none in front of them. -/
def signedDecimal? : List Char → Option Int
  | '-' :: cs => (decimal? cs).map fun n : Nat => -(n : Int)
  | '+' :: cs => (decimal? cs).map fun n : Nat => (n : Int)
  | cs => (decimal? cs).map fun n : Nat => (n : Int)

/-- The exponent that ends a literal, `0` where there is none. -/
def exponent? : List Char → Option Int
  | [] => some 0
  | 'e' :: cs | 'E' :: cs => signedDecimal? cs
  | _ => none

/-- The double nearest to the number with the digits `cs`, the last `places` of them after the point. -/
def nearest (cs : List Char) (places : Nat) (exponent : Int) : Float.Model :=
  .ofScientific (Nat.ofDigitChars 10 cs 0) (exponent - places)

/-- A literal without its sign: digits with a point before, between or after
them or without one, and an exponent or none. -/
def unsignedDouble? (cs : List Char) : Option Float.Model :=
  if cs = ['I', 'n', 'f', 'i', 'n', 'i', 't', 'y'] then some (.pack (.infinity .positive))
  else if cs = ['N', 'a', 'N'] then some (.pack .notANumber)
  else
    let whole := cs.takeWhile Char.isDigit
    match cs.dropWhile Char.isDigit with
    | '.' :: rest =>
      let places := rest.takeWhile Char.isDigit
      if whole ++ places = [] then none
      else (exponent? (rest.dropWhile Char.isDigit)).map (nearest (whole ++ places) places.length)
    | rest => if whole = [] then none else (exponent? rest).map (nearest whole 0)

def double? : List Char → Option Float.Model
  | '-' :: cs => (unsignedDouble? cs).map (-·)
  | '+' :: cs => unsignedDouble? cs
  | cs => unsignedDouble? cs

/-! ## `num.tryParse` -/

/-- `num.tryParse(s)`. -/
def tryParseNum (s : String) : Option Num :=
  match int64? (trimChars s.toList) with
  | some i => some (.int i)
  | none => (double? (trimChars s.toList)).map .double

/-- **Reading back a 64-bit integer's text** gives the integer. -/
theorem tryParseNum_repr {i : Int} (h : -0x8000000000000000 ≤ i ∧ i < 0x8000000000000000) : tryParseNum i.repr = some (.int i) := by
  have hi : signed? (trimChars i.repr.toList) = some i := tryParseInt_repr i
  simp only [tryParseNum, int64?, hi, if_pos h]

/-- What a number may start with. -/
def startsNumber (c : Char) : Bool := c.isDigit || c = '-' || c = '+' || c = '.' || c = 'I' || c = 'N'

theorem decimal?_of_head {c : Char} {cs : List Char} (hc : c.isDigit = false) : decimal? (c :: cs) = none := by
  simp [decimal?, hc]

/-- A text that starts with nothing a number starts with is none. -/
theorem tryParseNum_of_head {s : String} {c : Char} {cs : List Char} (hs : trimChars s.toList = c :: cs)
    (hc : startsNumber c = false) : tryParseNum s = none := by
  simp only [startsNumber, Bool.or_eq_false_iff, decide_eq_false_iff_not] at hc
  obtain ⟨⟨⟨⟨⟨hd, hm⟩, hp⟩, hdot⟩, hi⟩, hn⟩ := hc
  have hzero : c ≠ '0' := by
    rintro rfl
    exact absurd hd (by decide)
  have hl : literal? (c :: cs) = none := by
    unfold literal?
    split
    · next h => exact absurd (List.cons.inj h).1 hzero
    · next h => exact absurd (List.cons.inj h).1 hzero
    · exact decimal?_of_head hd
  have hsigned : signed? (c :: cs) = none := by
    unfold signed?
    split
    · next h => exact absurd (List.cons.inj h).1 hm
    · next h => exact absurd (List.cons.inj h).1 hp
    · rw [hl]
      rfl
  have hu : unsignedDouble? (c :: cs) = none := by
    simp [unsignedDouble?, hi, hn, hd]
    split
    · next h => exact absurd (List.cons.inj h).1 hdot
    · rfl
  have hdouble : double? (c :: cs) = none := by
    unfold double?
    split
    · next h => exact absurd (List.cons.inj h).1 hm
    · next h => exact absurd (List.cons.inj h).1 hp
    · exact hu
  simp only [tryParseNum, hs, int64?, hsigned, hdouble, Option.map_none]

end Dart
