/-
The texts the two forms limit to fifty. The limit is made with `max`, which
bounds the number a text reads as and not its length: the forms tell the
texts within their limits from the others exactly where the lengths and the
numbers happen to agree (`passed_iff`).
-/
import Sdapk.AddDoctorScreen
import Sdapk.AddPatientScreen
import Sdapk.Validators

open Dart Entity Forms Screen Validators

/-! ## The forms -/

/-- The fields of a form that are limited to fifty, the required ones first. -/
structure Limits where
  required : List String
  optional : List String

def Limits.names (l : Limits) : List String := l.required ++ l.optional

/-- A screen whose form is built of validators. -/
class Limited (R : Type) extends Screen R where
  widgets : List Widget
  limits : Limits
  limited : ∀ w ∈ widgets, w.validators =
    if w.name ∈ limits.required then [.required, .max 50] else if w.name ∈ limits.optional then [.max 50] else w.validators
  mem_widgets : ∀ name ∈ limits.names, ∃ w ∈ widgets, w.name = name
  accepts_of_validates {isEmail m} : Entered widgets m → validates isEmail widgets m → accepts fields m

def genders : List String := ["Male", "Female", "Other"]

def AddPatientScreen.widgets : List Widget :=
  [ ⟨"first_name", .text, [.required, .max 50]⟩,
    ⟨"last_name", .text, [.required, .max 50]⟩,
    ⟨"phone_number", .digits 10, [.required, .numeric]⟩,
    ⟨"alternate_phone_number", .digits 10, [.numeric]⟩,
    ⟨"email", .text, [.email]⟩,
    ⟨"age", .digits 2, [.required, .numeric]⟩,
    ⟨"date_of_birth", .date, []⟩,
    ⟨"gender", .choice genders, [.required]⟩,
    ⟨"address", .text, [.required, .max 50]⟩,
    ⟨"occupation", .text, [.max 50]⟩,
    ⟨"reference", .text, [.max 50]⟩ ]

def AddDoctorScreen.widgets : List Widget :=
  [ ⟨"first_name", .text, [.required, .max 50]⟩,
    ⟨"last_name", .text, [.required, .max 50]⟩,
    ⟨"phone_number", .digits 10, [.required, .numeric]⟩,
    ⟨"alternate_phone_number", .digits 10, [.numeric]⟩,
    ⟨"email", .text, [.required, .email]⟩,
    ⟨"age", .digits 2, [.required, .numeric]⟩,
    ⟨"date_of_joining", .date, [.required]⟩,
    ⟨"gender", .choice genders, [.required]⟩,
    ⟨"address", .text, [.required, .max 50]⟩,
    ⟨"specialization", .text, [.max 50]⟩,
    ⟨"education", .text, [.required]⟩,
    ⟨"registration_number", .text, [.required]⟩,
    ⟨"role", .text, [.required]⟩ ]

theorem AddPatientScreen.accepts_of_validates {isEmail : String → Bool} {m : DynMap} (hh : Entered widgets m)
    (hv : validates isEmail widgets m) : accepts fields m := by
  simp only [Entered, widgets, List.forall_mem_cons] at hh
  simp only [validates, Widget.passes, Validator.rejects, widgets, List.all_cons, List.all_nil, Bool.and_true, Bool.true_and,
    Bool.and_eq_true, Bool.not_eq_true'] at hv
  obtain ⟨h₁, h₂, h₃, h₄, h₅, h₆, h₇, h₈, h₉, h₁₀, h₁₁, -⟩ := hh
  obtain ⟨v₁, v₂, v₃, -, -, v₆, v₈, v₉, -⟩ := hv
  simp only [accepts, fields, List.all_cons, List.all_nil, Bool.and_true, Bool.and_eq_true]
  have htext : Input.text ≠ .date := by decide
  have hphone : Input.digits 10 ≠ .date := by decide
  have hchoice : Input.choice genders ≠ .date := by decide
  exact ⟨accepts_text h₁ v₁.1 htext, accepts_text h₂ v₂.1 htext, accepts_text h₃ v₃.1 hphone, accepts_text_optional h₄ hphone,
    accepts_text_optional h₅ htext, accepts_digits h₆ v₆.1, accepts_day h₇ fun h => absurd h Bool.false_ne_true,
    accepts_text h₈ v₈ hchoice, accepts_text h₉ v₉.1 htext, accepts_text_optional h₁₀ htext, accepts_text_optional h₁₁ htext⟩

theorem AddDoctorScreen.accepts_of_validates {isEmail : String → Bool} {m : DynMap} (hh : Entered widgets m)
    (hv : validates isEmail widgets m) : accepts fields m := by
  simp only [Entered, widgets, List.forall_mem_cons] at hh
  simp only [validates, Widget.passes, Validator.rejects, widgets, List.all_cons, List.all_nil, Bool.and_true,
    Bool.and_eq_true, Bool.not_eq_true'] at hv
  obtain ⟨h₁, h₂, h₃, h₄, h₅, h₆, h₇, h₈, h₉, h₁₀, h₁₁, h₁₂, h₁₃, -⟩ := hh
  obtain ⟨v₁, v₂, v₃, -, v₅, v₆, v₇, v₈, v₉, -, v₁₁, v₁₂, v₁₃⟩ := hv
  simp only [accepts, fields, List.all_cons, List.all_nil, Bool.and_true, Bool.and_eq_true]
  have htext : Input.text ≠ .date := by decide
  have hphone : Input.digits 10 ≠ .date := by decide
  have hchoice : Input.choice genders ≠ .date := by decide
  exact ⟨accepts_text h₁ v₁.1 htext, accepts_text h₂ v₂.1 htext, accepts_text h₃ v₃.1 hphone, accepts_text_optional h₄ hphone,
    accepts_text h₅ v₅.1 htext, accepts_digits h₆ v₆.1, accepts_day h₇ fun _ => v₇, accepts_text h₈ v₈ hchoice,
    accepts_text h₉ v₉.1 htext, accepts_text_optional h₁₀ htext, accepts_text h₁₁ v₁₁ htext, accepts_text h₁₂ v₁₂ htext,
    accepts_text h₁₃ v₁₃ htext⟩

instance : Limited Patient where
  widgets := AddPatientScreen.widgets
  limits := ⟨["first_name", "last_name", "address"], ["occupation", "reference"]⟩
  limited := by decide
  mem_widgets := by decide
  accepts_of_validates := AddPatientScreen.accepts_of_validates

instance : Limited Staff where
  widgets := AddDoctorScreen.widgets
  limits := ⟨["first_name", "last_name", "address"], ["specialization"]⟩
  limited := by decide
  mem_widgets := by decide
  accepts_of_validates := AddDoctorScreen.accepts_of_validates

namespace Limits

variable {R : Type} [Limited R]

/-! ## What passes -/

/-- The length of a field's text. -/
def length : Dyn → Nat
  | .str s => codeUnits s
  | _ => 0

/-- The texts are within their limits. -/
def WithinLimits (l : Limits) (m : DynMap) : Prop :=
  (∀ name ∈ l.required, ¬ blank (m.get name)) ∧ ∀ name ∈ l.names, length (m.get name) ≤ 50

/-- The lengths and the numbers agree: none of the texts is too long exactly
where none reads as a number greater than fifty; or a required one is blank. -/
def Agrees (l : Limits) (m : DynMap) : Prop :=
  (∃ name ∈ l.required, blank (m.get name)) ∨
    ((∀ name ∈ l.names, length (m.get name) ≤ 50) ↔ ∀ name ∈ l.names, ¬ readsOver 50 (m.get name))

/-- The fields that are not limited pass. -/
def OthersPass (R : Type) [Limited R] (isEmail : String → Bool) (m : DynMap) : Prop :=
  ∀ w ∈ Limited.widgets R, w.name ∉ (Limited.limits R).names → w.passes isEmail m

/-- The record the notifier makes of a form: of a new record, or of `record` edited. -/
def handedOn (record : Option R) (uid user : String) (now : DateTime) (form : DynMap) : Except Error R :=
  match record with
  | none => newRecord form uid user now
  | some r => edited r (some user) now form

/-- The form is let through, and the notifier has a record of it. -/
def Passed (isEmail : String → Bool) (record : Option R) (uid user : String) (now : DateTime) (form : DynMap) : Prop :=
  validates isEmail (Limited.widgets R) form ∧ ∃ r, handedOn record uid user now form = .ok r

variable {isEmail : String → Bool} {record : Option R} {changes m : DynMap} {uid user : String} {now : DateTime}

/-- What a limited field lets through. -/
theorem passes_limited_iff {w : Widget} (hw : w ∈ Limited.widgets R) (hn : w.name ∈ (Limited.limits R).names) :
    w.passes isEmail m ↔
      (w.name ∈ (Limited.limits R).required → ¬ blank (m.get w.name)) ∧ ¬ readsOver 50 (m.get w.name) := by
  have hv := Limited.limited w hw
  by_cases hr : w.name ∈ (Limited.limits R).required
  · rw [if_pos hr] at hv
    simp [Widget.passes, hv, Validator.rejects, hr]
  · rw [if_neg hr, if_pos ((List.mem_append.1 hn).resolve_left hr)] at hv
    simp [Widget.passes, hv, Validator.rejects, hr]

/-- **What the form lets through**: required texts that are not blank, and
no limited one that reads as a number greater than fifty. -/
theorem validates_iff (ho : OthersPass R isEmail m) : validates isEmail (Limited.widgets R) m ↔
    (∀ name ∈ (Limited.limits R).required, ¬ blank (m.get name)) ∧
      ∀ name ∈ (Limited.limits R).names, ¬ readsOver 50 (m.get name) := by
  rw [validates, List.all_eq_true]
  constructor
  · intro h
    have hpass : ∀ name ∈ (Limited.limits R).names,
        (name ∈ (Limited.limits R).required → ¬ blank (m.get name)) ∧ ¬ readsOver 50 (m.get name) := by
      intro name hn
      obtain ⟨w, hw, rfl⟩ := Limited.mem_widgets name hn
      exact (passes_limited_iff hw hn).1 (h w hw)
    exact ⟨fun name hn => (hpass name (List.mem_append_left _ hn)).1 hn, fun name hn => (hpass name hn).2⟩
  · intro h w hw
    obtain ⟨hblank, hover⟩ := h
    by_cases hn : w.name ∈ (Limited.limits R).names
    · exact (passes_limited_iff hw hn).2 ⟨hblank _, hover _ hn⟩
    · exact ho w hw hn

/-- An accepted form is a record. -/
theorem exists_handedOn (h : Accepted R (formValue fields record changes)) :
    ∃ r, handedOn record uid user now (formValue fields record changes) = .ok r := by
  cases record with
  | none =>
    obtain ⟨r, hr, -⟩ := @newRecord_ok R _ changes uid user now h
    exact ⟨r, hr⟩
  | some r =>
    obtain ⟨r', hr', -⟩ := @edited_ok R _ r changes user now h
    exact ⟨r', hr'⟩

/-- **The forms accept exactly the texts within their limits where a required
one is blank, or the lengths and the numbers agree**: of a new record and of
an edited one, patients and doctors alike. -/
theorem passed_iff (hh : Entered (Limited.widgets R) (formValue fields record changes))
    (ho : OthersPass R isEmail (formValue fields record changes)) :
    (Passed isEmail record uid user now (formValue fields record changes) ↔
      WithinLimits (Limited.limits R) (formValue fields record changes)) ↔
    Agrees (Limited.limits R) (formValue fields record changes) := by
  have hpassed : Passed isEmail record uid user now (formValue fields record changes) ↔
      validates isEmail (Limited.widgets R) (formValue fields record changes) :=
    and_iff_left_of_imp fun hv => exists_handedOn (Limited.accepts_of_validates hh hv)
  rw [hpassed, validates_iff ho, WithinLimits, Agrees]
  by_cases hb : ∃ name ∈ (Limited.limits R).required, blank ((formValue fields record changes).get name)
  · have hnot : ¬ ∀ name ∈ (Limited.limits R).required, ¬ blank ((formValue fields record changes).get name) := by
      obtain ⟨name, hn, hblank⟩ := hb
      exact fun h => h name hn hblank
    simp only [hnot, hb, false_and, true_or]
  · have hall : ∀ name ∈ (Limited.limits R).required, ¬ blank ((formValue fields record changes).get name) :=
      fun name hn hblank => hb ⟨name, hn, hblank⟩
    rw [and_iff_right hall, and_iff_right hall, or_iff_right hb]
    exact iff_comm

instance {l : Limits} : Decidable (Agrees l m) := inferInstanceAs (Decidable (_ ∨ _))

instance {l : Limits} : Decidable (WithinLimits l m) := inferInstanceAs (Decidable (_ ∧ _))

instance : Decidable (OthersPass R isEmail m) := inferInstanceAs (Decidable (∀ _ ∈ _, _ → _))

/-- An `@` somewhere, which tells the e-mail addresses below from other texts. -/
def hasAt (s : String) : Bool := s.toList.any (· = '@')

/-- Short texts in a new patient's form, and no address in a new doctor's. -/
theorem passed_iff_short :
    (Passed (R := Patient) hasAt none "P-1" "U" (.reading 0) (newForm Patient AddPatientScreen.filledIn) ↔
      WithinLimits (Limited.limits Patient) (newForm Patient AddPatientScreen.filledIn)) ∧
    (Passed (R := Staff) hasAt none "D-1" "U" (.reading 0) (newForm Staff (("address", .str "") :: AddDoctorScreen.filledIn)) ↔
      WithinLimits (Limited.limits Staff) (newForm Staff (("address", .str "") :: AddDoctorScreen.filledIn))) :=
  ⟨(passed_iff (by decide +kernel) (by decide +kernel)).2 (by decide +kernel),
    (passed_iff (by decide +kernel) (by decide +kernel)).2 (by decide +kernel)⟩

/-- A new patient's form with `address` in it, filled in otherwise. -/
def formWith (address : String) : DynMap :=
  newForm Patient (("address", .str address) :: AddPatientScreen.filledIn)

/-- **An address of fifty-one letters is let through, and the address `51` is not.** -/
theorem lets_long_through :
    (Entered (Limited.widgets Patient) (formWith (String.ofList (List.replicate 51 'A'))) ∧
      OthersPass Patient hasAt (formWith (String.ofList (List.replicate 51 'A'))) ∧
      ¬ (Passed (R := Patient) hasAt none "P-1" "U" (.reading 0) (formWith (String.ofList (List.replicate 51 'A'))) ↔
        WithinLimits (Limited.limits Patient) (formWith (String.ofList (List.replicate 51 'A'))))) ∧
    (Entered (Limited.widgets Patient) (formWith "51") ∧ OthersPass Patient hasAt (formWith "51") ∧
      ¬ (Passed (R := Patient) hasAt none "P-1" "U" (.reading 0) (formWith "51") ↔
        WithinLimits (Limited.limits Patient) (formWith "51"))) := by
  refine ⟨⟨by decide +kernel, by decide +kernel, fun h => ?_⟩, by decide +kernel, by decide +kernel, fun h => ?_⟩
  · have hpassed := h.1 ⟨by decide +kernel, exists_handedOn (by decide +kernel)⟩
    exact absurd hpassed (by decide +kernel)
  · have hlimits : WithinLimits (Limited.limits Patient) (formWith "51") := by decide +kernel
    exact absurd (h.2 hlimits).1 (by decide +kernel)

end Limits
