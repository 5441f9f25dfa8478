/-
What the fields of the forms are built of: the inputs with their formatters,
and the validators the package `form_builder_validators` composes. Whether
the package takes a text for an e-mail address is a parameter.
-/
import Sdapk.Dart.Number
import Sdapk.Forms

namespace Validators

open Dart Forms

/-! ## Inputs -/

/-- The input of a field. -/
inductive Input
  | text
  /-- Text, limited to so many digits as it is typed. -/
  | digits (limit : Nat)
  | date
  | choice (options : List String)
  deriving DecidableEq

/-- What an input may hold. -/
def Input.holds : Input → Dyn → Bool
  | _, .null => true
  | text, .str _ => true
  | digits limit, .str s => s.toList.length ≤ limit ∧ s.toList.all Char.isDigit
  | date, .dateTime _ => true
  | choice options, .str s => s ∈ options
  | _, _ => false

/-! ## Validators -/

inductive Validator
  | required
  | max (n : Int)
  | numeric
  | email
  deriving DecidableEq

/-- Nothing, or nothing but white space. -/
def blank : Dyn → Bool
  | .null => true
  | .str s => trim s = ""
  | _ => false

/-- A text that reads as a number greater than `n`. -/
def readsOver (n : Int) : Dyn → Bool
  | .str s => (tryParseNum s).any (Num.isGreater n)
  | _ => false

def Validator.rejects (isEmail : String → Bool) : Validator → Dyn → Bool
  | required, v => blank v
  | max n, v => readsOver n v
  | numeric, .str s => s ≠ "" ∧ (tryParseNum s).isNone
  | email, .str s => s ≠ "" ∧ isEmail (trim s) = false
  | _, _ => false

/-- A field as its form is built of it. -/
structure Widget where
  name : String
  input : Input
  validators : List Validator

/-- `FormBuilderValidators.compose`: none of the validators rejects. -/
def Widget.passes (isEmail : String → Bool) (w : Widget) (m : DynMap) : Bool :=
  w.validators.all fun v => !v.rejects isEmail (m.get w.name)

/-- Every field passes. -/
def validates (isEmail : String → Bool) (widgets : List Widget) (m : DynMap) : Bool :=
  widgets.all fun w => w.passes isEmail m

/-- Every input holds what it may. -/
def Entered (widgets : List Widget) (m : DynMap) : Prop := ∀ w ∈ widgets, w.input.holds (m.get w.name)

instance {widgets : List Widget} {m : DynMap} : Decidable (Entered widgets m) :=
  inferInstanceAs (Decidable (∀ _ ∈ _, _))

/-! ## What passes is accepted -/

section

variable {isEmail : String → Bool} {v : Dyn} {s : String} {i : Int}

/-- Every input but that of a date holds text or nothing. -/
theorem exists_ofString {input : Input} (hh : input.holds v) (hd : input ≠ .date) : ∃ o, v = .ofString o := by
  cases v with
  | null => exact ⟨none, rfl⟩
  | str s => exact ⟨some s, rfl⟩
  | dateTime d =>
    cases input with
    | date => exact absurd rfl hd
    | _ => cases hh
  | _ => cases input <;> cases hh

theorem accepts_text {input : Input} (hh : input.holds v) (hb : blank v = false) (hd : input ≠ .date) :
    (FieldKind.text true).accepts v := by
  obtain ⟨_ | s, rfl⟩ := exists_ofString hh hd
  · cases hb
  · simpa [FieldKind.accepts, blank] using hb

theorem accepts_text_optional {input : Input} (hh : input.holds v) (hd : input ≠ .date) :
    (FieldKind.text false).accepts v := by
  obtain ⟨_ | s, rfl⟩ := exists_ofString hh hd <;> rfl

theorem accepts_digits (hh : (Input.digits 2).holds v) (hb : blank v = false) : FieldKind.age.accepts v := by
  cases v with
  | str s =>
    have hne : s.toList ≠ [] := by
      intro hs
      obtain rfl := String.toList_eq_nil_iff.1 hs
      exact absurd hb (by decide)
    have hpos := List.length_pos_iff.2 hne
    simp only [Input.holds, Bool.decide_and, Bool.and_eq_true, decide_eq_true_eq] at hh
    simp only [FieldKind.accepts, Bool.decide_and, Bool.and_eq_true, decide_eq_true_eq]
    exact ⟨hpos, hh⟩
  | null => cases hb
  | _ => cases hh

theorem accepts_day {required : Bool} (hh : Input.date.holds v) (hb : required → blank v = false) :
    (FieldKind.date required).accepts v := by
  cases v with
  | dateTime d => cases required <;> rfl
  | null => cases required with
    | false => rfl
    | true => cases hb rfl
  | _ => cases hh

/-! ## What `max` rejects -/

/-- A number is rejected, however few its digits. -/
theorem readsOver_repr {n : Int} (h : -0x8000000000000000 ≤ i ∧ i < 0x8000000000000000) : readsOver n (.str i.repr) ↔ n < i := by
  simp [readsOver, tryParseNum_repr h, Num.isGreater]

/-- A text that starts like no number is let through, however long it is. -/
theorem readsOver_of_head {n : Int} {c : Char} {cs : List Char} (hs : trimChars s.toList = c :: cs)
    (hc : startsNumber c = false) : readsOver n (.str s) = false := by
  simp [readsOver, tryParseNum_of_head hs hc]

end

end Validators
