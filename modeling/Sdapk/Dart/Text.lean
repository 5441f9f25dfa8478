/-
Text in Dart, as far as a program that prints and reads numbers needs it:
white space, `String.trim`, `String.substring`, and `int.parse` against the
decimal text `int.toString` gives.

* `tryParseInt_repr`: the text of an integer reads back as that integer.
* `repr_injective`: so two integers with one text are equal.
-/
import Mathlib.Data.List.DropRight

namespace Dart

/-- White space, as `String.trim` and `int.parse` skip it. -/
def isWhitespace (c : Char) : Bool :=
  let n := c.toNat
  (9 ≤ n && n ≤ 13) || n == 0x20 || n == 0x85 || n == 0xA0 || n == 0x1680 || (0x2000 ≤ n && n ≤ 0x200A) ||
    n == 0x2028 || n == 0x2029 || n == 0x202F || n == 0x205F || n == 0x3000 || n == 0xFEFF

/-- The characters without white space at either end. -/
def trimChars (cs : List Char) : List Char := (cs.dropWhile isWhitespace).rdropWhile isWhitespace

/-- `s.trim()`. -/
def trim (s : String) : String := String.ofList (trimChars s.toList)

/-- `s.substring(n)`, for `n` within the text. It drops characters, where Dart drops code units: the same in an id, which has no
character past the first 65536. -/
def substring (s : String) (n : Nat) : String := String.ofList (s.toList.drop n)

/-- `s.length`: the number of code units, of which a character past the first 65536 takes two. -/
def codeUnits (s : String) : Nat := s.toList.length + s.toList.countP fun c => 0x10000 ≤ c.toNat

/-- A text that goes on starts as it did. -/
theorem head_append {s s' : String} {c : Char} (h : ∃ cs, s.toList = c :: cs) : ∃ cs, (s ++ s').toList = c :: cs := by
  obtain ⟨cs, hs⟩ := h
  rw [String.toList_append, hs]
  exact ⟨_, rfl⟩

/-! ## `int.parse` -/

/-- The value of one or more decimal digits. -/
def decimal? (cs : List Char) : Option Nat :=
  if cs ≠ [] ∧ cs.all Char.isDigit then some (Nat.ofDigitChars 10 cs 0) else none

/-- The value of a hexadecimal digit. -/
def hexDigit? (c : Char) : Option Nat :=
  if c.isDigit then some (c.toNat - 48)
  else if 'a' ≤ c ∧ c ≤ 'f' then some (c.toNat - 87)
  else if 'A' ≤ c ∧ c ≤ 'F' then some (c.toNat - 55)
  else none

/-- The value of one or more hexadecimal digits. -/
def hexadecimal? (cs : List Char) : Option Nat :=
  if cs = [] then none else cs.foldlM (fun n c => (hexDigit? c).map (16 * n + ·)) 0

/-- An integer literal without its sign: decimal digits, or `0x` and
hexadecimal ones. -/
def literal? : List Char → Option Nat
  | '0' :: 'x' :: cs | '0' :: 'X' :: cs => hexadecimal? cs
  | cs => decimal? cs

/-- An integer literal, with a sign or without. -/
def signed? : List Char → Option Int
  | '-' :: cs => (literal? cs).map fun n => -(n : Int)
  | '+' :: cs => (literal? cs).map fun n => (n : Int)
  | cs => (literal? cs).map fun n => (n : Int)

/-- `int.tryParse(s)`: white space around the literal is skipped. There is no bound here; where Dart's integers of 64 bits
end, its literals are none. -/
def tryParseInt (s : String) : Option Int := signed? (trimChars s.toList)

/-! ## The text of an integer -/

theorem not_isWhitespace_of_isDigit {c : Char} (h : c.isDigit = true) : isWhitespace c = false := by
  simp only [Char.isDigit, Bool.and_eq_true, decide_eq_true_eq, ge_iff_le, UInt32.le_iff_toNat_le] at h
  have h₁ : 48 ≤ c.toNat := h.1
  have h₂ : c.toNat ≤ 57 := h.2
  simp only [isWhitespace, Bool.or_eq_false_iff, Bool.and_eq_false_iff, decide_eq_false_iff_not, beq_eq_false_iff_ne]
  omega

/-- Text with no white space in it is its own trimming. -/
theorem trimChars_eq_self {cs : List Char} (hw : ∀ c ∈ cs, isWhitespace c = false) : trimChars cs = cs := by
  have hd : cs.dropWhile isWhitespace = cs := by
    cases cs with
    | nil => rfl
    | cons c cs => exact List.dropWhile_cons_of_neg (by simp [hw c])
  rw [trimChars, hd, List.rdropWhile_eq_self_iff]
  intro hne
  simp [hw _ (List.getLast_mem hne)]

theorem decimal?_of_digits {cs : List Char} (hne : cs ≠ []) (h : ∀ c ∈ cs, c.isDigit = true) :
    decimal? cs = some (Nat.ofDigitChars 10 cs 0) :=
  if_pos ⟨hne, List.all_eq_true.2 h⟩

theorem digits_of_toDigits {n : Nat} : ∀ c ∈ Nat.toDigits 10 n, c.isDigit = true :=
  fun _ hc => Nat.isDigit_of_mem_toDigits (by decide) (by decide) hc

theorem decimal?_toDigits (n : Nat) : decimal? (Nat.toDigits 10 n) = some n := by
  rw [decimal?_of_digits Nat.toDigits_ne_nil digits_of_toDigits, Nat.ofDigitChars_ten_toDigits]

/-- Decimal digits are a literal of their own value: none of them is the `x`
of a hexadecimal prefix. -/
theorem literal?_of_digits {cs : List Char} (h : ∀ c ∈ cs, c.isDigit = true) : literal? cs = decimal? cs := by
  unfold literal?
  split
  · exact absurd (h 'x' (by simp)) (by decide)
  · exact absurd (h 'X' (by simp)) (by decide)
  · rfl

theorem signed?_of_digits {cs : List Char} (h : ∀ c ∈ cs, c.isDigit = true) :
    signed? cs = (decimal? cs).map fun n => (n : Int) := by
  unfold signed?
  split
  · exact absurd (h '-' (by simp)) (by decide)
  · exact absurd (h '+' (by simp)) (by decide)
  · rw [literal?_of_digits h]

theorem tryParseInt_of_digits {cs : List Char} (h : ∀ c ∈ cs, c.isDigit = true) :
    tryParseInt (String.ofList cs) = (decimal? cs).map fun n => (n : Int) := by
  have hw : ∀ c ∈ cs, isWhitespace c = false := fun c hc => not_isWhitespace_of_isDigit (h c hc)
  rw [tryParseInt, String.toList_ofList, trimChars_eq_self hw, signed?_of_digits h]

/-- One or more decimal digits are read, as a number that is not negative. -/
theorem tryParseInt_isSome {cs : List Char} (hne : cs ≠ []) (h : ∀ c ∈ cs, c.isDigit = true) :
    ∃ n : Nat, tryParseInt (String.ofList cs) = some (n : Int) := by
  rw [tryParseInt_of_digits h, decimal?_of_digits hne h]
  exact ⟨_, rfl⟩

/-- **Reading back an integer's text** gives the integer. -/
@[simp] theorem tryParseInt_repr (i : Int) : tryParseInt i.repr = some i := by
  rw [Int.repr_eq_if]
  split
  · next h =>
    rw [Nat.repr_eq_ofList_toDigits, tryParseInt_of_digits digits_of_toDigits, decimal?_toDigits]
    simp [Int.toNat_of_nonneg h]
  · next h =>
    have hw : ∀ c ∈ '-' :: Nat.toDigits 10 (-i).toNat, isWhitespace c = false := by
      intro c hc
      rcases List.mem_cons.1 hc with rfl | hc
      · decide
      · exact not_isWhitespace_of_isDigit (digits_of_toDigits c hc)
    rw [tryParseInt, String.toList_append, Nat.toList_repr, show "-".toList = ['-'] from rfl,
      List.singleton_append, trimChars_eq_self hw]
    have hn : -((-i).toNat : Int) = i := by omega
    simp only [signed?, literal?_of_digits digits_of_toDigits, decimal?_toDigits]
    exact congrArg some hn

theorem repr_injective : Function.Injective Int.repr := fun i j h => by
  have hi := tryParseInt_repr i
  rw [h, tryParseInt_repr] at hi
  exact (Option.some.inj hi).symm

end Dart
