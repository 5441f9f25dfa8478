/-
What comes back of a saved record. A record that has a date somewhere is
never loaded as it was saved, and one that has none always is
(`load_save_iff`): the decoder looks for a date in the text of a value that
the store hands back as a `Timestamp`.
-/
import Sdapk.Patient
import Sdapk.Staff

namespace Codec

open Dart Firestore

theorem getD_eq_self {o : Option String} (h : o ≠ none) : some (o.getD "") = o := by
  cases o with
  | none => exact absurd rfl h
  | some s => rfl

theorem reloaded_patient_iff {p : Patient} (hc : p.createdBy ≠ none) (hu : p.updatedBy ≠ none) :
    p.reloaded = p ↔ p.dob = none ∧ p.createdAt = none ∧ p.updatedAt = none := by
  constructor
  · intro h
    exact ⟨(congrArg Patient.dob h).symm, (congrArg Patient.createdAt h).symm, (congrArg Patient.updatedAt h).symm⟩
  · rintro ⟨hd, hca, hua⟩
    cases p
    simp only at hc hu hd hca hua
    simp only [Patient.reloaded, getD_eq_self hc, getD_eq_self hu, hd, hca, hua]

theorem reloaded_staff_iff {d : Staff} (hc : d.createdBy ≠ none) (hu : d.updatedBy ≠ none) (hs : d.specialization ≠ none) :
    d.reloaded = d ↔ d.doj = none ∧ d.createdAt = none ∧ d.updatedAt = none := by
  constructor
  · intro h
    exact ⟨(congrArg Staff.doj h).symm, (congrArg Staff.createdAt h).symm, (congrArg Staff.updatedAt h).symm⟩
  · rintro ⟨hd, hca, hua⟩
    cases d
    simp only at hc hu hs hd hca hua
    simp only [Staff.reloaded, getD_eq_self hc, getD_eq_self hu, getD_eq_self hs, hd, hca, hua]

/-- **A record comes back as it was saved exactly where it has no date**: of
the records the app can write, patients and doctors alike. -/
theorem load_save_iff (p : Patient) (d : Staff) :
    (p.createdBy ≠ none → p.updatedBy ≠ none →
      (Patient.fromMap (document p.toJson) = .ok p ↔ p.dob = none ∧ p.createdAt = none ∧ p.updatedAt = none)) ∧
    (d.createdBy ≠ none → d.updatedBy ≠ none → d.specialization ≠ none →
      (Staff.fromMap (document d.toJson) = .ok d ↔ d.doj = none ∧ d.createdAt = none ∧ d.updatedAt = none)) := by
  constructor
  · intro hc hu
    rw [Patient.fromMap_toJson, Except.ok.injEq, reloaded_patient_iff hc hu]
  · intro hc hu hs
    rw [Staff.fromMap_toJson, Except.ok.injEq, reloaded_staff_iff hc hu hs]

/-- A patient as the app registers one, at the epoch. -/
def registeredPatient : Patient :=
  { id := "P-1", firstName := "F", lastName := "L", mobileNumber := "1234567890", address := "A", gender := "Female",
    age := 41, alternateMobileNumber := none, email := none, dob := none, occupation := none, reference := none,
    createdAt := some (.reading 0), updatedAt := none, createdBy := some "U", updatedBy := some "" }

/-- A doctor as the app registers one, at the epoch. -/
def registeredDoctor : Staff :=
  { id := "D-1", firstName := "F", lastName := "L", mobileNumber := "1234567890", address := "A", gender := "Female",
    email := "f@l.in", age := 41, doj := some (.reading 0), role := "R", education := "E",
    registrationNumber := some "1", alternateMobileNumber := none, specialization := some "",
    createdAt := some (.reading 0), updatedAt := none, createdBy := some "U", updatedBy := some "" }

/-- A patient just registered is loaded as one made at no known time. -/
theorem load_save_registered :
    registeredPatient.createdBy ≠ none ∧ registeredPatient.updatedBy ≠ none ∧
      Patient.fromMap (document registeredPatient.toJson) = .ok { registeredPatient with createdAt := none } ∧
      Patient.fromMap (document registeredPatient.toJson) ≠ .ok registeredPatient := by
  decide +kernel

/-- Without their dates, both come back. -/
theorem load_save_undated :
    Patient.fromMap (document { registeredPatient with createdAt := none }.toJson) =
        .ok { registeredPatient with createdAt := none } ∧
      Staff.fromMap (document { registeredDoctor with doj := none, createdAt := none }.toJson) =
        .ok { registeredDoctor with doj := none, createdAt := none } := by
  have h := load_save_iff { registeredPatient with createdAt := none } { registeredDoctor with doj := none, createdAt := none }
  exact ⟨(h.1 (by decide) (by decide)).2 (by decide), (h.2 (by decide) (by decide) (by decide)).2 (by decide)⟩

end Codec
