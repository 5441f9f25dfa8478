/-
Store and list, changed together or not at all. An operation has its effect
on one and then on the other, and what fails in between is swallowed, or
thrown when one of the two is done: `atomic_iff` says for each operation of
the two notifiers, at every collection and list and whatever its remote calls
come to, exactly when both change or neither does.
-/
import Sdapk.AddDoctorScreen
import Sdapk.AddPatientScreen

namespace Atomicity

open Dart Firestore Entity Notifier

variable {R : Type} [Entity R] {form : DynMap} {o : Outcome} {w : World R} {r : R} {id : String}

/-- An add stored and listed a record and succeeded, or did nothing and did not succeed. -/
def AddAtomic (create : String → Except Error R) (o : Outcome) (w : World R) (x : World R × Except Error String) : Prop :=
  (∃ uid r, generateId R o w.docs = .ok uid ∧ create uid = .ok r ∧
    x = (⟨w.docs.set (key r) (doc r), r :: w.state⟩, .ok "success")) ∨
  x.1 = w ∧ x.2 ≠ .ok "success"

/-- An update stored a record and replaced its entry and succeeded, or did nothing and did not succeed. -/
def UpdateAtomic (decoded : Except Error R) (w : World R) (x : World R × Except Error String) : Prop :=
  (∃ r state, decoded = .ok r ∧ replaced r w.state = .ok state ∧
    x = (⟨w.docs.set (key r) (doc r), state⟩, .ok "success")) ∨
  x.1 = w ∧ x.2 ≠ .ok "success"

/-- A remove deleted a record and took it out of the list and succeeded, or did nothing. -/
def RemoveAtomic (id : String) (w : World R) (x : World R × Except Error Unit) : Prop :=
  x = (⟨w.docs.erase id, Keyed.without key id w.state⟩, .ok ()) ∨ x.1 = w

/-- A record is stored: its write goes through, or the document is there already. -/
theorem upsert_eq_set : upsert r o w.docs = w.docs.set (key r) (doc r) ↔ o.write ∨ w.docs.get (key r) = some (doc r) := by
  unfold upsert
  split
  · next h => simp [h]
  · next h => simp [h, eq_comm (a := w.docs), SortedMap.set_eq_self]

/-- The collection is left alone: the write does not go through, or the document is there already. -/
theorem upsert_eq_self : upsert r o w.docs = w.docs ↔ ¬ o.write ∨ w.docs.get (key r) = some (doc r) := by
  unfold upsert
  split
  · next h => simp [h, SortedMap.set_eq_self]
  · next h => simp [h]

theorem add_atomic_iff {create : String → Except Error R} (hnil : form = [] → ∀ uid r, create uid ≠ .ok r) :
    AddAtomic create o w (add form create o w) ↔
      ∀ uid, generateId R o w.docs = .ok uid →
        form ≠ [] ∧ ∀ r, create uid = .ok r → o.write ∨ w.docs.get (key r) = some (doc r) := by
  unfold AddAtomic add
  cases hg : generateId R o w.docs with
  | error e => simp
  | ok uid =>
    by_cases hform : form = []
    · simp [hform, hnil hform]
    cases hr : create uid with
    | error e => simp [hform, hr]
    | ok r => simp [hform, hr, ← upsert_eq_set]

theorem save_atomic_iff :
    UpdateAtomic (.ok r) w (save r o w) ↔
      w.docs.get (key r) = some (doc r) ∨ (o.write = true ↔ key r ∈ w.state.map key) := by
  have hset := @upsert_eq_set R _ o w r
  have hself := @upsert_eq_self R _ o w r
  unfold UpdateAtomic save
  by_cases hk : key r ∈ w.state.map key
  · -- The entry is found: the list is changed, so the collection must be.
    obtain ⟨state, hs⟩ : ∃ state, replaced r w.state = .ok state := by
      cases hs : replaced r w.state with
      | ok state => exact ⟨state, rfl⟩
      | error e => exact absurd hk (replaced_eq_error.1 hs).2
    have : UpdateAtomic (.ok r) w (⟨upsert r o w.docs, state⟩, .ok "success") ↔
        upsert r o w.docs = w.docs.set (key r) (doc r) := by simp [UpdateAtomic, hs]
    simp only [hs, hk, iff_true]
    exact this.trans (hset.trans or_comm)
  · -- It is not: the caller is told so, and the collection must be left alone.
    have hs : replaced r w.state = .error .rangeError := replaced_eq_error.2 ⟨rfl, hk⟩
    have hw : (⟨upsert r o w.docs, w.state⟩ : World R) = w ↔ upsert r o w.docs = w.docs := by cases w; simp
    have : UpdateAtomic (.ok r) w (⟨upsert r o w.docs, w.state⟩, .error .rangeError) ↔ upsert r o w.docs = w.docs := by
      rw [← hw]
      simp [UpdateAtomic]
    simp only [hs, hk, iff_false]
    exact this.trans (hself.trans or_comm)

theorem update_atomic_iff {decoded : Except Error R} (hnil : form = [] → ∀ r, decoded ≠ .ok r) :
    UpdateAtomic decoded w (update form decoded o w) ↔
      form ≠ [] ∧ ∀ r, decoded = .ok r →
        w.docs.get (key r) = some (doc r) ∨ (o.write = true ↔ key r ∈ w.state.map key) := by
  unfold update
  by_cases hform : form = []
  · simp [UpdateAtomic, hform, hnil hform]
  cases decoded with
  | error e => simp [UpdateAtomic, hform]
  | ok r =>
    rw [if_neg hform, save_atomic_iff]
    exact ⟨fun h => ⟨hform, fun r' hr => Except.ok.inj hr ▸ h⟩, fun h => h.2 r rfl⟩

theorem remove_atomic_iff :
    RemoveAtomic id w (remove id o w) ↔ o.write ∨ w.docs.get id = none ∨ id ∉ w.state.map key := by
  have herase : delete id o w.docs = w.docs.erase id ↔ o.write ∨ w.docs.get id = none := by
    unfold delete
    split
    · next h => simp [h]
    · next h => simp [h, eq_comm (a := w.docs), SortedMap.erase_eq_self]
  have hself : delete id o w.docs = w.docs ↔ ¬ o.write ∨ w.docs.get id = none := by
    unfold delete
    split
    · next h => simp [h, SortedMap.erase_eq_self]
    · next h => simp [h]
  have hdone : remove id o w = (⟨w.docs.erase id, Keyed.without key id w.state⟩, .ok ()) ↔
      delete id o w.docs = w.docs.erase id := by simp [remove, Keyed.without]
  have hnone : (remove id o w).1 = w ↔ delete id o w.docs = w.docs ∧ Keyed.without key id w.state = w.state := by
    cases w
    simp [remove, Keyed.without]
  rw [RemoveAtomic, hdone, hnone, herase, hself, Keyed.without_eq_self]
  tauto

/-! ## The notifiers' operations -/

theorem newPatient_nil (hform : form = []) (user : String) (now : DateTime) (uid : String) (p : Patient) :
    PatientsNotifier.newPatient form uid user now ≠ .ok p := by
  rw [hform]
  exact nofun

theorem newDoctor_nil (hform : form = []) (user : String) (now : DateTime) (uid : String) (d : Staff) :
    DoctorsNotifier.newDoctor form uid user now ≠ .ok d := by
  rw [hform]
  exact nofun

/-- **When an operation changes both or neither**: of patients, and of
doctors. An add does unless its write fails, or the form is empty; an update
unless the form is empty, or its write fails where the entry is found or goes
through where it is not; a remove unless its delete fails and there was
something to delete and to take out of the list. -/
theorem atomic_iff (form : DynMap) (user : String) (now : DateTime) (id : String) (o : Outcome) (w : World Patient)
    (v : World Staff) :
    (AddAtomic (PatientsNotifier.newPatient form · user now) o w (PatientsNotifier.addPatient form user now o w) ↔
      ∀ uid, generateId Patient o w.docs = .ok uid → form ≠ [] ∧ ∀ p,
        PatientsNotifier.newPatient form uid user now = .ok p → o.write ∨ w.docs.get p.id = some (doc p)) ∧
    (UpdateAtomic (PatientsNotifier.updatedPatient form user now) w (PatientsNotifier.updatePatient form user now o w) ↔
      form ≠ [] ∧ ∀ p, PatientsNotifier.updatedPatient form user now = .ok p →
        w.docs.get p.id = some (doc p) ∨ (o.write = true ↔ p.id ∈ w.state.map (·.id))) ∧
    (RemoveAtomic id w (PatientsNotifier.removePatient id o w) ↔
      o.write ∨ w.docs.get id = none ∨ id ∉ w.state.map (·.id)) ∧
    (AddAtomic (DoctorsNotifier.newDoctor form · user now) o v (DoctorsNotifier.addDoctor form user now o v) ↔
      ∀ uid, generateId Staff o v.docs = .ok uid → form ≠ [] ∧ ∀ d,
        DoctorsNotifier.newDoctor form uid user now = .ok d → o.write ∨ v.docs.get d.id = some (doc d)) ∧
    (UpdateAtomic (Staff.fromMap form) v (DoctorsNotifier.updateDoctor form o v) ↔
      form ≠ [] ∧ ∀ d, Staff.fromMap form = .ok d →
        v.docs.get d.id = some (doc d) ∨ (o.write = true ↔ d.id ∈ v.state.map (·.id))) ∧
    (RemoveAtomic id v (DoctorsNotifier.removeDoctor id o v) ↔
      o.write ∨ v.docs.get id = none ∨ id ∉ v.state.map (·.id)) := by
  refine ⟨?_, ?_, remove_atomic_iff, ?_, ?_, remove_atomic_iff⟩
  · exact add_atomic_iff fun hform uid p => newPatient_nil hform user now uid p
  · refine update_atomic_iff fun hform p => ?_
    rw [hform]
    exact nofun
  · exact add_atomic_iff fun hform uid d => newDoctor_nil hform user now uid d
  · refine update_atomic_iff fun hform d => ?_
    rw [hform]
    exact nofun

/-- A patient is registered while nothing is stored, and the write does not go through. -/
def addPatientUnwritten : World Patient × Except Error String :=
  PatientsNotifier.addPatient (Screen.newForm Patient AddPatientScreen.filledIn) "U" (.reading 1) { write := false } .empty

/-- **A failed registration succeeds**: the patient is listed and not stored,
and the caller is told "success". -/
theorem addPatient_unwritten :
    ¬ AddAtomic (PatientsNotifier.newPatient (Screen.newForm Patient AddPatientScreen.filledIn) · "U" (.reading 1))
      { write := false } .empty addPatientUnwritten := by
  have hdocs : addPatientUnwritten.1.docs.keys = [] := by decide +kernel
  have hres : addPatientUnwritten.2 = .ok "success" := by decide +kernel
  rintro (⟨uid, p, -, -, hx⟩ | ⟨-, hne⟩)
  · have hmem : key p ∈ addPatientUnwritten.1.docs.keys := by
      rw [hx]
      exact SortedMap.mem_keys_set.2 (.inl rfl)
    rw [hdocs] at hmem
    cases hmem
  · exact hne hres

end Atomicity
