/-
The patients' edit screen and card: the form's fields with what they first
hold, what `_saveAndValidate` adds to its value, and that both notifier
calls keep the laws of a `Screen`.
-/
import Sdapk.Screen

open Dart Firestore Entity Forms

namespace AddPatientScreen

def fields : List (FormField Patient) :=
  [ ⟨"first_name", .text true, fun p => .str p.firstName⟩,
    ⟨"last_name", .text true, fun p => .str p.lastName⟩,
    ⟨"phone_number", .text true, fun p => .str p.mobileNumber⟩,
    ⟨"alternate_phone_number", .text false, fun p => .ofString p.alternateMobileNumber⟩,
    ⟨"email", .text false, fun p => .ofString p.email⟩,
    ⟨"age", .age, fun p => .str (toString p.age)⟩,
    ⟨"date_of_birth", .date false, fun p => .ofDateTime p.dob⟩,
    ⟨"gender", .text true, fun p => .str p.gender⟩,
    ⟨"address", .text true, fun p => .str p.address⟩,
    ⟨"occupation", .text false, fun p => .ofString p.occupation⟩,
    ⟨"reference", .text false, fun p => .ofString p.reference⟩ ]

/-- The form's value as it is handed on where the screen has a patient. -/
def editData (patient : Patient) (formData : DynMap) : DynMap :=
  ((formData.insert "createdAt" (.ofDateTime patient.createdAt)).insert "createdBy" (.ofString patient.createdBy)).insert
    "id" (.str patient.id)

/-- `_saveAndValidate`, once `getUserName` has answered and the form has been saved. -/
def saveAndValidate (isUpdate : Bool) (patient : Option Patient) (userName : Option String) (formData : DynMap)
    (now : DateTime) (o : Outcome) (w : World Patient) : World Patient × Except Error Unit :=
  if accepts fields formData then
    let formData := match patient with
      | some patient => editData patient formData
      | none => formData
    match nonNull userName with
    | .error e => (w, .error e)
    | .ok userName =>
      if isUpdate then awaited (PatientsNotifier.updatePatient formData userName now o w)
      else awaited (PatientsNotifier.addPatient formData userName now o w)
  else (w, .ok ())

end AddPatientScreen

/-! ## The card -/

/-- The texts of the card. -/
def PatientCard.texts (toUpperCase : String → String) (patient : Patient) : Except Error (List String) := do
  let addressing := if patient.gender = "Male" then "Mr." else "Ms."
  let firstLetter := toUpperCase (← charAt patient.firstName 0) ++ toUpperCase (← charAt patient.lastName 0)
  return [firstLetter, addressing ++ " " ++ patient.firstName ++ " " ++ patient.lastName, patient.mobileNumber, patient.id]

/-- The card needs a letter of each name. -/
theorem PatientCard.shown {p : Patient} (h : p.firstName ≠ "" ∧ p.lastName ≠ "") : Shown PatientCard.texts p := by
  intro toUpperCase
  obtain ⟨c, hc⟩ := charAt_zero_ok h.1
  obtain ⟨c', hc'⟩ := charAt_zero_ok h.2
  simp only [PatientCard.texts, hc, hc', bind, Except.bind]
  exact ⟨_, rfl⟩

/-! ## What the notifier makes of a form -/

namespace PatientsNotifier

theorem withDob_ok {form : DynMap} {p p' : Patient} (h : withDob form p = .ok p') : ∃ dob, p' = { p with dob := dob } := by
  unfold withDob at h
  split at h
  · exact ⟨p.dob, (Except.ok.inj h).symm⟩
  · obtain ⟨dob, -, h⟩ := bind_eq_ok.1 h
    exact ⟨dob, (Except.ok.inj h).symm⟩

/-- A date the form holds as a date changes nothing: it was read from its text already. -/
theorem withDob_self {form : DynMap} {p : Patient} (h : form.get "date_of_birth" = .ofDateTime p.dob) :
    withDob form p = .ok p := by
  unfold withDob
  rw [h, Dyn.asDateTimeOrNull_ofDateTime]
  split <;> rfl

theorem newPatient_ok {form : DynMap} {uid user : String} {now : DateTime} {p : Patient}
    (h : newPatient form uid user now = .ok p) :
    ∃ q dob, Patient.fromMap form = .ok q ∧ p = { q with id := uid, createdAt := now, createdBy := user, dob := dob } := by
  obtain ⟨q, hq, h⟩ := bind_eq_ok.1 h
  obtain ⟨dob, rfl⟩ := withDob_ok h
  exact ⟨q, dob, hq, rfl⟩

theorem updatedPatient_ok {form : DynMap} {user : String} {now : DateTime} {p : Patient}
    (h : updatedPatient form user now = .ok p) :
    ∃ q dob, Patient.fromMap form = .ok q ∧ p = { q with updatedBy := user, updatedAt := now, dob := dob } := by
  obtain ⟨q, hq, h⟩ := bind_eq_ok.1 h
  obtain ⟨p', hp', h⟩ := bind_eq_ok.1 h
  obtain ⟨dob, rfl⟩ := withDob_ok hp'
  exact ⟨q, dob, hq, (Except.ok.inj h).symm⟩

end PatientsNotifier

namespace AddPatientScreen

open PatientsNotifier

/-- An accepted form is a patient: the rest of the map must be text where `fromMap` casts it. -/
theorem exists_reads {m : DynMap} (i : String) (cb ub : Option String) (h : accepts fields m)
    (hi : (m.get "id").orEmpty = .str i) (hcb : (m.get "createdBy").orEmpty = .ofString cb)
    (hub : (m.get "updatedBy").orEmpty = .ofString ub) :
    ∃ p, Patient.Reads m p ∧ m.get "date_of_birth" = .ofDateTime p.dob := by
  simp only [accepts, fields, List.all_cons, List.all_nil, Bool.and_true, Bool.and_eq_true] at h
  obtain ⟨h₁, h₂, h₃, h₄, h₅, h₆, h₇, h₈, h₉, h₁₀, h₁₁⟩ := h
  obtain ⟨firstName, e₁, -⟩ := accepts_required h₁
  obtain ⟨lastName, e₂, -⟩ := accepts_required h₂
  obtain ⟨mobileNumber, e₃, -⟩ := accepts_required h₃
  obtain ⟨alternateMobileNumber, e₄⟩ := accepts_optional h₄
  obtain ⟨email, e₅⟩ := accepts_optional h₅
  obtain ⟨age, e₆⟩ := accepts_age h₆
  obtain ⟨dob, e₇⟩ := accepts_date h₇
  obtain ⟨gender, e₈, -⟩ := accepts_required h₈
  obtain ⟨address, e₉, -⟩ := accepts_required h₉
  obtain ⟨occupation, e₁₀⟩ := accepts_optional h₁₀
  obtain ⟨reference, e₁₁⟩ := accepts_optional h₁₁
  refine ⟨{ id := i, firstName, lastName, mobileNumber, address, gender, age, alternateMobileNumber, email, dob,
            occupation, reference, createdAt := (m.get "createdAt").tryParseDate,
            updatedAt := (m.get "updatedAt").tryParseDate, createdBy := cb, updatedBy := ub },
    ⟨e₁, e₂, e₃, e₄, e₅, e₆, hi, e₉, e₈, e₁₀, e₁₁, ?_, rfl, hcb, rfl, hub⟩, e₇⟩
  rw [e₇, Dyn.tryParseDate_ofDateTime]

/-- A patient read from an accepted form has both names. -/
theorem names_of_reads {m : DynMap} {p : Patient} (h : accepts fields m) (hr : Patient.Reads m p) :
    p.firstName ≠ "" ∧ p.lastName ≠ "" := by
  simp only [accepts, fields, List.all_cons, Bool.and_eq_true] at h
  obtain ⟨firstName, hf, hfne⟩ := accepts_required h.1
  obtain ⟨lastName, hl, hlne⟩ := accepts_required h.2.1
  rw [hr.firstName] at hf
  rw [hr.lastName] at hl
  exact ⟨Dyn.str.inj hf ▸ hfne, Dyn.str.inj hl ▸ hlne⟩

section

variable {p q : Patient} {form changes : DynMap} {user : Option String} {uid userName : String} {now : DateTime}

@[simp] theorem get_editData_id : (editData p form).get "id" = .str p.id := by
  simp [editData, DynMap.get_insert]

@[simp] theorem get_editData_createdAt : (editData p form).get "createdAt" = .ofDateTime p.createdAt := by
  simp [editData, DynMap.get_insert]

@[simp] theorem get_editData_createdBy : (editData p form).get "createdBy" = .ofString p.createdBy := by
  simp [editData, DynMap.get_insert]

theorem get_editData {k : String} (hi : k ≠ "id") (hca : k ≠ "createdAt") (hcb : k ≠ "createdBy") :
    (editData p form).get k = form.get k := by
  simp only [editData, DynMap.get_insert, if_neg hi, if_neg hca, if_neg hcb]

theorem accepts_editData : accepts fields (editData p form) = accepts fields form := by
  unfold editData
  rw [accepts_insert (by decide), accepts_insert (by decide), accepts_insert (by decide)]

/-- What is read of an edit was made when and by whom the screen's patient was. -/
theorem reads_editData (h : Patient.Reads (editData p form) q) :
    q.id = p.id ∧ q.createdAt = p.createdAt ∧ q.createdBy = some (p.createdBy.getD "") := by
  have hid := h.id
  have hca := h.createdAt
  have hcb := h.createdBy
  rw [get_editData_id] at hid
  rw [get_editData_createdAt, Dyn.tryParseDate_ofDateTime] at hca
  rw [get_editData_createdBy, Dyn.orEmpty_ofString] at hcb
  exact ⟨(Dyn.str.inj hid).symm, hca.symm, (Dyn.ofString_injective (o := some _) hcb).symm⟩

theorem newPatient_accepted (h : accepts fields (formValue fields none changes)) :
    ∃ q, Patient.Reads (formValue fields none changes) q ∧ q.updatedAt = none ∧ q.updatedBy = some "" ∧
      newPatient (formValue fields none changes) uid userName now =
        .ok { q with id := uid, createdAt := now, createdBy := userName } := by
  have hnull : ∀ k ∉ fields.map (·.name), (formValue fields none changes).get k = .null := fun k => get_formValue_other
  obtain ⟨q, hr, hd⟩ := exists_reads "" (some "") (some "") h
    (by rw [hnull _ (by decide)]; rfl) (by rw [hnull _ (by decide)]; rfl) (by rw [hnull _ (by decide)]; rfl)
  have hua := hr.updatedAt
  have hub := hr.updatedBy
  rw [hnull _ (by decide), Dyn.tryParseDate_null] at hua
  rw [hnull _ (by decide)] at hub
  refine ⟨q, hr, hua.symm, (Dyn.ofString_injective (o := some "") hub).symm, ?_⟩
  rw [newPatient, Patient.fromMap_eq_ok.2 hr]
  exact withDob_self hd

/-- The patient an edit saves: `userName!` throws before anything is decoded. -/
def edited (p : Patient) (user : Option String) (now : DateTime) (form : DynMap) : Except Error Patient := do
  updatedPatient (editData p form) (← nonNull user) now

theorem edited_accepted (h : accepts fields (formValue fields (some p) changes)) :
    ∃ q, Patient.Reads (editData p (formValue fields (some p) changes)) q ∧
      (formValue fields (some p) changes).get "date_of_birth" = .ofDateTime q.dob ∧
      edited p (some userName) now (formValue fields (some p) changes) =
        .ok { q with updatedBy := userName, updatedAt := now } := by
  have hub : (formValue fields (some p) changes).get "updatedBy" = .null := get_formValue_other (by decide)
  rw [← accepts_editData (p := p)] at h
  obtain ⟨q, hr, hd⟩ := exists_reads p.id (some (p.createdBy.getD "")) (some "") h
    (by simp) (by simp) (by rw [get_editData (by decide) (by decide) (by decide), hub]; rfl)
  refine ⟨q, hr, (get_editData (by decide) (by decide) (by decide)).symm.trans hd, ?_⟩
  show updatedPatient _ userName now = _
  rw [updatedPatient, Patient.fromMap_eq_ok.2 hr]
  simp only [bind, Except.bind, withDob_self hd]
  rfl

theorem edited_ok (h : edited p user now form = .ok q) :
    ∃ userName q₀ dob, user = some userName ∧ Patient.Reads (editData p form) q₀ ∧
      q = { q₀ with updatedBy := userName, updatedAt := now, dob := dob } := by
  obtain ⟨userName, hu, h⟩ := bind_eq_ok.1 h
  obtain ⟨q₀, dob, hq, rfl⟩ := updatedPatient_ok h
  exact ⟨userName, q₀, dob, nonNull_eq_ok.1 hu, Patient.fromMap_eq_ok.1 hq, rfl⟩

theorem saveAndValidate_update {o : Outcome} {w : World Patient} :
    saveAndValidate true (some p) user form now o w =
      if accepts fields form then submitEdit (edited p user now form) o w else (w, .ok ()) := by
  unfold saveAndValidate PatientsNotifier.updatePatient Notifier.update
  cases user with
  | none => rfl
  | some userName =>
    have he : edited p (some userName) now form = updatedPatient (editData p form) userName now := rfl
    have hne : editData p form ≠ [] := DynMap.insert_ne_nil
    simp only [nonNull, he, if_neg hne, if_true]
    cases updatedPatient (editData p form) userName now <;> rfl

end

end AddPatientScreen

instance : Screen Patient where
  fields := AddPatientScreen.fields
  newRecord := PatientsNotifier.newPatient
  edited := AddPatientScreen.edited
  saveAndValidate p user form now o w := AddPatientScreen.saveAndValidate p.isSome p user form now o w
  texts := PatientCard.texts
  fields_nodup := by decide
  fields_ne_nil := by decide
  saveAndValidate_none := rfl
  saveAndValidate_some := AddPatientScreen.saveAndValidate_update
  newRecord_stamped h := by
    obtain ⟨q, dob, -, rfl⟩ := PatientsNotifier.newPatient_ok h
    exact ⟨rfl, rfl, rfl⟩
  edited_keeps h := by
    obtain ⟨userName, q, dob, -, hr, rfl⟩ := AddPatientScreen.edited_ok h
    have hq := AddPatientScreen.reads_editData hr
    exact hq
  newRecord_ok h := by
    obtain ⟨q, hr, hua, hub, hq⟩ := AddPatientScreen.newPatient_accepted h
    have hn := AddPatientScreen.names_of_reads h hr
    refine ⟨_, hq, PatientCard.shown hn, ?_⟩
    simp only [audit, hua, hub]
  edited_ok h := by
    obtain ⟨q, hr, -, hq⟩ := AddPatientScreen.edited_accepted h
    obtain ⟨-, hca, hcb⟩ := AddPatientScreen.reads_editData hr
    refine ⟨_, hq, ?_⟩
    simp only [audit, hca, hcb]
  edited_shown h he := by
    obtain ⟨userName, q, dob, -, hr, rfl⟩ := AddPatientScreen.edited_ok he
    have hn := AddPatientScreen.names_of_reads (AddPatientScreen.accepts_editData.symm ▸ h) hr
    exact PatientCard.shown hn
  reloaded_shown h := h

/-- A form filled in as far as it must be. -/
def AddPatientScreen.filledIn : DynMap :=
  [("first_name", .str "F"), ("last_name", .str "L"), ("phone_number", .str "1234567890"), ("age", .str "41"),
    ("gender", .str "Female"), ("address", .str "A")]

example : Screen.Accepted Patient (Screen.newForm Patient AddPatientScreen.filledIn) := by decide +kernel

/-- The patient that is registered with it. -/
def AddPatientScreen.registered (id : String) (now : DateTime) : Patient :=
  { id, firstName := "F", lastName := "L", mobileNumber := "1234567890", address := "A", gender := "Female", age := 41,
    alternateMobileNumber := none, email := none, dob := none, occupation := none, reference := none,
    createdAt := now, updatedAt := none, createdBy := some "U", updatedBy := some "" }

example : PatientsNotifier.newPatient (Screen.newForm Patient AddPatientScreen.filledIn) "P-1" "U" (.reading 0) =
    .ok (AddPatientScreen.registered "P-1" (.reading 0)) := by decide +kernel
