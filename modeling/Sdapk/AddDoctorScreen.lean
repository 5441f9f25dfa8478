/-
The doctors' edit screen and card. It hands an update on with its stamps
already in the form's value, where the notifier reads them back from text.
-/
import Sdapk.Screen

open Dart Firestore Entity Forms

namespace AddDoctorScreen

-- `education` first holds the specialization, and `role` the registration number.
def fields : List (FormField Staff) :=
  [ ⟨"first_name", .text true, fun d => .str d.firstName⟩,
    ⟨"last_name", .text true, fun d => .str d.lastName⟩,
    ⟨"phone_number", .text true, fun d => .str d.mobileNumber⟩,
    ⟨"alternate_phone_number", .text false, fun d => .ofString d.alternateMobileNumber⟩,
    ⟨"email", .text true, fun d => .str d.email⟩,
    ⟨"age", .age, fun d => .str (toString d.age)⟩,
    ⟨"date_of_joining", .date true, fun d => .ofDateTime d.doj⟩,
    ⟨"gender", .text true, fun d => .str d.gender⟩,
    ⟨"address", .text true, fun d => .str d.address⟩,
    ⟨"specialization", .text false, fun d => .ofString d.specialization⟩,
    ⟨"education", .text true, fun d => .ofString d.specialization⟩,
    ⟨"registration_number", .text true, fun d => .ofString d.registrationNumber⟩,
    ⟨"role", .text true, fun d => .ofString d.registrationNumber⟩ ]

/-- The form's value as it is handed on where the screen has a doctor: the update is stamped here. -/
def editData (doctor : Staff) (userName : Option String) (now : DateTime) (formData : DynMap) : DynMap :=
  ((((formData.insert "createdAt" (.ofDateTime doctor.createdAt)).insert "createdBy" (.ofString doctor.createdBy)).insert
    "updatedAt" (.dateTime now)).insert "updatedBy" (.ofString userName)).insert "id" (.str doctor.id)

/-- `_saveAndValidate`, once `getUserName` has answered and the form has been saved. -/
def saveAndValidate (doctor : Option Staff) (userName : Option String) (formData : DynMap) (now : DateTime)
    (o : Outcome) (w : World Staff) : World Staff × Except Error Unit :=
  if accepts fields formData then
    match doctor with
    | some doctor => awaited (DoctorsNotifier.updateDoctor (editData doctor userName now formData) o w)
    | none =>
      match nonNull userName with
      | .error e => (w, .error e)
      | .ok userName => awaited (DoctorsNotifier.addDoctor formData userName now o w)
  else (w, .ok ())

end AddDoctorScreen

/-! ## The card -/

/-- The texts of the card. -/
def DoctorCard.texts (toUpperCase : String → String) (doctor : Staff) : Except Error (List String) := do
  let addressing := "Dr."
  let firstLetter := toUpperCase (← charAt doctor.firstName 0) ++ toUpperCase (← charAt doctor.lastName 0)
  return [firstLetter, addressing ++ " " ++ doctor.firstName ++ " " ++ doctor.lastName, doctor.mobileNumber,
    ← nonNull doctor.registrationNumber]

/-- The card needs a letter of each name, and the registration number. -/
theorem DoctorCard.shown {d : Staff} (h : d.firstName ≠ "" ∧ d.lastName ≠ "" ∧ ∃ n, d.registrationNumber = some n) :
    Shown DoctorCard.texts d := by
  intro toUpperCase
  obtain ⟨hf, hl, n, hn⟩ := h
  obtain ⟨c, hc⟩ := charAt_zero_ok hf
  obtain ⟨c', hc'⟩ := charAt_zero_ok hl
  simp only [DoctorCard.texts, hc, hc', hn, nonNull, bind, Except.bind]
  exact ⟨_, rfl⟩

/-! ## What the notifier makes of a form -/

theorem DoctorsNotifier.newDoctor_ok {form : DynMap} {uid user : String} {now : DateTime} {d : Staff}
    (h : newDoctor form uid user now = .ok d) :
    ∃ q, Staff.fromMap form = .ok q ∧ d = { q with id := uid, createdAt := now, createdBy := user } := by
  obtain ⟨q, hq, h⟩ := bind_eq_ok.1 h
  exact ⟨q, hq, (Except.ok.inj h).symm⟩

namespace AddDoctorScreen

open DoctorsNotifier

/-- An accepted form is a doctor: the rest of the map must be text where `fromMap` casts it. -/
theorem exists_reads {m : DynMap} (i : String) (cb ub : Option String) (h : accepts fields m)
    (hi : (m.get "id").orEmpty = .str i) (hcb : (m.get "createdBy").orEmpty = .ofString cb)
    (hub : (m.get "updatedBy").orEmpty = .ofString ub) : ∃ d, Staff.Reads m d := by
  simp only [accepts, fields, List.all_cons, List.all_nil, Bool.and_true, Bool.and_eq_true] at h
  obtain ⟨h₁, h₂, h₃, h₄, h₅, h₆, h₇, h₈, h₉, h₁₀, h₁₁, h₁₂, h₁₃⟩ := h
  obtain ⟨firstName, e₁, -⟩ := accepts_required h₁
  obtain ⟨lastName, e₂, -⟩ := accepts_required h₂
  obtain ⟨mobileNumber, e₃, -⟩ := accepts_required h₃
  obtain ⟨alternateMobileNumber, e₄⟩ := accepts_optional h₄
  obtain ⟨email, e₅, -⟩ := accepts_required h₅
  obtain ⟨age, e₆⟩ := accepts_age h₆
  obtain ⟨doj, e₇⟩ := accepts_date h₇
  obtain ⟨gender, e₈, -⟩ := accepts_required h₈
  obtain ⟨address, e₉, -⟩ := accepts_required h₉
  obtain ⟨specialization, e₁₀⟩ := accepts_optional h₁₀
  obtain ⟨education, e₁₁, -⟩ := accepts_required h₁₁
  obtain ⟨registrationNumber, e₁₂, -⟩ := accepts_required h₁₂
  obtain ⟨role, e₁₃, -⟩ := accepts_required h₁₃
  refine ⟨{ id := i, firstName, lastName, mobileNumber, address, gender, email, age, doj, role, education,
            registrationNumber := some registrationNumber, alternateMobileNumber,
            specialization := some (specialization.getD ""), createdAt := (m.get "createdAt").tryParseDate,
            updatedAt := (m.get "updatedAt").tryParseDate, createdBy := cb, updatedBy := ub },
    ⟨e₁, e₂, e₃, e₄, e₅, e₆, hi, e₁₁, e₁₃, e₉, e₈, ?_, ?_, e₁₂, rfl, hcb, rfl, hub⟩⟩
  · rw [e₇, Dyn.tryParseDate_ofDateTime]
  · rw [e₁₀, Dyn.orEmpty_ofString, Dyn.ofString_some]

/-- A doctor read from an accepted form has both names and a registration number. -/
theorem shown_of_reads {m : DynMap} {d : Staff} (h : accepts fields m) (hr : Staff.Reads m d) :
    d.firstName ≠ "" ∧ d.lastName ≠ "" ∧ ∃ n, d.registrationNumber = some n := by
  simp only [accepts, fields, List.all_cons, List.all_nil, Bool.and_true, Bool.and_eq_true] at h
  obtain ⟨h₁, h₂, -, -, -, -, -, -, -, -, -, h₁₂, -⟩ := h
  obtain ⟨firstName, hf, hfne⟩ := accepts_required h₁
  obtain ⟨lastName, hl, hlne⟩ := accepts_required h₂
  obtain ⟨registrationNumber, hn, -⟩ := accepts_required h₁₂
  rw [hr.firstName] at hf
  rw [hr.lastName] at hl
  rw [hr.registrationNumber] at hn
  exact ⟨Dyn.str.inj hf ▸ hfne, Dyn.str.inj hl ▸ hlne, registrationNumber, Dyn.ofString_injective (hn : _ = Dyn.ofString (some registrationNumber))⟩

section

variable {d q : Staff} {form changes : DynMap} {user : Option String} {uid userName : String} {now : DateTime}

@[simp] theorem get_editData_id : (editData d user now form).get "id" = .str d.id := by
  simp [editData, DynMap.get_insert]

@[simp] theorem get_editData_createdAt : (editData d user now form).get "createdAt" = .ofDateTime d.createdAt := by
  simp [editData, DynMap.get_insert]

@[simp] theorem get_editData_createdBy : (editData d user now form).get "createdBy" = .ofString d.createdBy := by
  simp [editData, DynMap.get_insert]

@[simp] theorem get_editData_updatedAt : (editData d user now form).get "updatedAt" = .ofDateTime (some now) := by
  simp [editData, DynMap.get_insert]

@[simp] theorem get_editData_updatedBy : (editData d user now form).get "updatedBy" = .ofString user := by
  simp [editData, DynMap.get_insert]

theorem accepts_editData : accepts fields (editData d user now form) = accepts fields form := by
  unfold editData
  rw [accepts_insert (by decide), accepts_insert (by decide), accepts_insert (by decide), accepts_insert (by decide),
    accepts_insert (by decide)]

/-- What is read of an edit was made when and by whom the screen's doctor was, and its stamps are read back. -/
theorem reads_editData (h : Staff.Reads (editData d user now form) q) :
    q.id = d.id ∧ q.createdAt = d.createdAt ∧ q.createdBy = some (d.createdBy.getD "") ∧ q.updatedAt = some now ∧
      q.updatedBy = some (user.getD "") := by
  have hid := h.id
  have hca := h.createdAt
  have hcb := h.createdBy
  have hua := h.updatedAt
  have hub := h.updatedBy
  rw [get_editData_id] at hid
  rw [get_editData_createdAt, Dyn.tryParseDate_ofDateTime] at hca
  rw [get_editData_createdBy, Dyn.orEmpty_ofString] at hcb
  rw [get_editData_updatedAt, Dyn.tryParseDate_ofDateTime] at hua
  rw [get_editData_updatedBy, Dyn.orEmpty_ofString] at hub
  exact ⟨(Dyn.str.inj hid).symm, hca.symm, (Dyn.ofString_injective (o := some _) hcb).symm, hua.symm,
    (Dyn.ofString_injective (o := some _) hub).symm⟩

theorem newDoctor_accepted (h : accepts fields (formValue fields none changes)) :
    ∃ q, Staff.Reads (formValue fields none changes) q ∧ q.updatedAt = none ∧ q.updatedBy = some "" ∧
      newDoctor (formValue fields none changes) uid userName now =
        .ok { q with id := uid, createdAt := now, createdBy := userName } := by
  have hnull : ∀ k ∉ fields.map (·.name), (formValue fields none changes).get k = .null := fun k => get_formValue_other
  obtain ⟨q, hr⟩ := exists_reads "" (some "") (some "") h
    (by rw [hnull _ (by decide)]; rfl) (by rw [hnull _ (by decide)]; rfl) (by rw [hnull _ (by decide)]; rfl)
  have hua := hr.updatedAt
  have hub := hr.updatedBy
  rw [hnull _ (by decide), Dyn.tryParseDate_null] at hua
  rw [hnull _ (by decide)] at hub
  refine ⟨q, hr, hua.symm, (Dyn.ofString_injective (o := some "") hub).symm, ?_⟩
  rw [newDoctor, Staff.fromMap_eq_ok.2 hr]
  rfl

/-- The doctor an edit saves. -/
def edited (d : Staff) (user : Option String) (now : DateTime) (form : DynMap) : Except Error Staff :=
  Staff.fromMap (editData d user now form)

theorem edited_accepted (h : accepts fields form) :
    ∃ q, Staff.Reads (editData d user now form) q ∧ edited d user now form = .ok q := by
  have h : accepts fields (editData d user now form) := accepts_editData.trans h
  obtain ⟨q, hr⟩ := exists_reads d.id (some (d.createdBy.getD "")) (some (user.getD "")) h
    (by simp) (by simp) (by simp)
  exact ⟨q, hr, Staff.fromMap_eq_ok.2 hr⟩

theorem saveAndValidate_update {o : Outcome} {w : World Staff} :
    saveAndValidate (some d) user form now o w =
      if accepts fields form then submitEdit (edited d user now form) o w else (w, .ok ()) := by
  have hne : editData d user now form ≠ [] := DynMap.insert_ne_nil
  unfold saveAndValidate DoctorsNotifier.updateDoctor Notifier.update edited
  simp only [if_neg hne]
  cases Staff.fromMap (editData d user now form) <;> rfl

end

end AddDoctorScreen

instance : Screen Staff where
  fields := AddDoctorScreen.fields
  newRecord := DoctorsNotifier.newDoctor
  edited := AddDoctorScreen.edited
  saveAndValidate := AddDoctorScreen.saveAndValidate
  texts := DoctorCard.texts
  fields_nodup := by decide
  fields_ne_nil := by decide
  saveAndValidate_none := rfl
  saveAndValidate_some := AddDoctorScreen.saveAndValidate_update
  newRecord_stamped h := by
    obtain ⟨q, -, rfl⟩ := DoctorsNotifier.newDoctor_ok h
    exact ⟨rfl, rfl, rfl⟩
  edited_keeps h := by
    obtain ⟨hid, hca, hcb, -⟩ := AddDoctorScreen.reads_editData (Staff.fromMap_eq_ok.1 h)
    exact ⟨hid, hca, hcb⟩
  newRecord_ok h := by
    obtain ⟨q, hr, hua, hub, hq⟩ := AddDoctorScreen.newDoctor_accepted h
    have hs := AddDoctorScreen.shown_of_reads h hr
    refine ⟨_, hq, DoctorCard.shown hs, ?_⟩
    simp only [audit, hua, hub]
  edited_ok h := by
    obtain ⟨q, hr, hq⟩ := AddDoctorScreen.edited_accepted h
    obtain ⟨-, hca, hcb, hua, hub⟩ := AddDoctorScreen.reads_editData hr
    refine ⟨_, hq, ?_⟩
    simp only [audit, hca, hcb, hua, hub, Option.getD_some]
  edited_shown h he :=
    DoctorCard.shown (AddDoctorScreen.shown_of_reads (AddDoctorScreen.accepts_editData.symm ▸ h) (Staff.fromMap_eq_ok.1 he))
  reloaded_shown h := h

/-- A form filled in as far as it must be. -/
def AddDoctorScreen.filledIn : DynMap :=
  [("first_name", .str "F"), ("last_name", .str "L"), ("phone_number", .str "1234567890"), ("email", .str "f@l.in"),
    ("age", .str "41"), ("date_of_joining", .dateTime (.reading 0)), ("gender", .str "Female"), ("address", .str "A"),
    ("education", .str "E"), ("registration_number", .str "1"), ("role", .str "R")]

example : Screen.Accepted Staff (Screen.newForm Staff AddDoctorScreen.filledIn) := by decide +kernel
