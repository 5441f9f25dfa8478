/-
The two notifiers. Each keeps a list of records beside a collection, and
their operations differ in the record alone: one definition for each
operation, and `PatientsNotifier` and `DoctorsNotifier` as what it is at the
two records.

An operation is given what each of its remote calls comes to (`Outcome`). A
query that does not answer throws; a write that does not go through is
swallowed where it is made.
-/
import Sdapk.Entity
import Sdapk.Keyed

open Dart Firestore Entity

/-- A collection, and the list a notifier keeps of it. -/
structure World (R : Type) where
  docs : Collection
  state : List R

/-- Whether an operation's query answers, and whether its write or delete goes through. -/
structure Outcome where
  query : Bool := true
  write : Bool := true
  deriving DecidableEq

/-- Nothing stored, nothing listed. -/
def World.empty {R : Type} : World R := ⟨.empty, []⟩

namespace Notifier

variable {R : Type} [Entity R]

/-! ## Helper methods -/

/-- The number in an id: `int.parse(id.substring(2))`. No clinic comes to the number `2 ^ 63`, where Dart would throw, or to
the one below it, after which `+ 1` would wrap. -/
def idNumber (id : Dyn) : Except Error Int := do
  let id ← id.asString
  if id.toList.length < 2 then .error .rangeError else (Dyn.str (substring id 2)).parseInt

/-- The id after that of the latest document, as a query for one document returns it. -/
def nextId (R : Type) [Entity R] : List Doc → Except Error String
  | [] => .ok (idPrefix R ++ "1")
  | latest :: _ => do
    let latestId := (← idNumber (latest.get "id")) + 1
    return idPrefix R ++ toString latestId

def generateId (R : Type) [Entity R] (o : Outcome) (docs : Collection) : Except Error String :=
  if o.query then nextId R (query docs "createdAt" 1) else .error .firebaseException

/-- What is stored after a record is written. -/
def upsert (r : R) (o : Outcome) (docs : Collection) : Collection :=
  if o.write then docs.set (key r) (doc r) else docs

/-! ## Operations -/

/-- The list as a load assigns it: the latest 25 documents, all decoded or none. -/
def loaded (R : Type) [Entity R] (docs : Collection) : Except Error (List R) :=
  (query docs "createdAt" 25).mapM fromMap

def load (o : Outcome) (w : World R) : World R × Except Error Unit :=
  if o.query then
    match loaded R w.docs with
    | .ok state => ({ w with state }, .ok ())
    | .error e => (w, .error e)
  else (w, .error .firebaseException)

/-- `create` is given the new id. -/
def add (formData : DynMap) (create : String → Except Error R) (o : Outcome) (w : World R) :
    World R × Except Error String :=
  match generateId R o w.docs with
  | .error e => (w, .error e)
  | .ok uid =>
    if formData = [] then (w, .ok "success") else
    match create uid with
    | .error e => (w, .error e)
    | .ok r => (⟨upsert r o w.docs, r :: w.state⟩, .ok "success")

/-- The list with the first entry of `r`'s id replaced by `r`; where there is none, index `-1` is written to. -/
def replaced (r : R) (state : List R) : Except Error (List R) :=
  match state.findIdx? fun r' => key r' = key r with
  | some i => .ok (state.set i r)
  | none => .error .rangeError

/-- A decoded update: stored first, then looked for in the list. -/
def save (r : R) (o : Outcome) (w : World R) : World R × Except Error String :=
  let docs := upsert r o w.docs
  match replaced r w.state with
  | .error e => (⟨docs, w.state⟩, .error e)
  | .ok state => (⟨docs, state⟩, .ok "success")

def update (formData : DynMap) (decoded : Except Error R) (o : Outcome) (w : World R) :
    World R × Except Error String :=
  if formData = [] then (w, .ok "success") else
  match decoded with
  | .error e => (w, .error e)
  | .ok r => save r o w

/-- What is stored after a delete. -/
def delete (id : String) (o : Outcome) (docs : Collection) : Collection := if o.write then docs.erase id else docs

def remove (id : String) (o : Outcome) (w : World R) : World R × Except Error Unit :=
  (⟨delete id o w.docs, w.state.filter fun r => key r ≠ id⟩, .ok ())

/-! ## What the operations do to the list -/

theorem replaced_eq_error {r : R} {state : List R} {e : Error} :
    replaced r state = .error e ↔ e = .rangeError ∧ key r ∉ state.map key := by
  rw [← Keyed.findIdx?_eq_none (a := r), replaced]
  cases state.findIdx? fun r' => key r' = key r <;> simp [eq_comm]

/-- Where an id has one entry, that is replaced. -/
theorem eq_put_of_replaced {r : R} {state state' : List R} (hc : (state.map key).count (key r) ≤ 1)
    (h : replaced r state = .ok state') : state' = Keyed.put key r state := by
  unfold replaced at h
  split at h
  · next hi => rw [← Except.ok.inj h, Keyed.set_eq_put hc hi]
  · cases h

theorem replaced_eq_put {r : R} {state : List R} (hn : (state.map key).Nodup) (h : key r ∈ state.map key) :
    replaced r state = .ok (Keyed.put key r state) := by
  cases hs : replaced r state with
  | ok state' => rw [eq_put_of_replaced (List.nodup_iff_count_le_one.1 hn _) hs]
  | error e => exact absurd h (replaced_eq_error.1 hs).2

end Notifier

/-! ## Patients -/

namespace PatientsNotifier

def addPatients (o : Outcome) (w : World Patient) : World Patient × Except Error Unit := Notifier.load o w

/-- `patient.dob = formData['date_of_birth']` where it is not null, once decoded as text. -/
def withDob (formData : DynMap) (patient : Patient) : Except Error Patient :=
  if formData.get "date_of_birth" = .null then .ok patient
  else do return { patient with dob := ← (formData.get "date_of_birth").asDateTimeOrNull }

def newPatient (formData : DynMap) (uid userEmail : String) (now : DateTime) : Except Error Patient := do
  let newPatient ← Patient.fromMap formData
  withDob formData { newPatient with id := uid, createdAt := now, createdBy := userEmail }

def addPatient (formData : DynMap) (userEmail : String) (now : DateTime) (o : Outcome) (w : World Patient) :
    World Patient × Except Error String :=
  Notifier.add formData (fun uid => newPatient formData uid userEmail now) o w

def updatedPatient (formData : DynMap) (userName : String) (now : DateTime) : Except Error Patient := do
  let updatedPatient ← withDob formData (← Patient.fromMap formData)
  return { updatedPatient with updatedBy := userName, updatedAt := now }

def updatePatient (formData : DynMap) (userName : String) (now : DateTime) (o : Outcome) (w : World Patient) :
    World Patient × Except Error String :=
  Notifier.update formData (updatedPatient formData userName now) o w

def removePatient (id : String) (o : Outcome) (w : World Patient) : World Patient × Except Error Unit :=
  Notifier.remove id o w

end PatientsNotifier

/-! ## Doctors -/

namespace DoctorsNotifier

def addDoctors (o : Outcome) (w : World Staff) : World Staff × Except Error Unit := Notifier.load o w

def newDoctor (formData : DynMap) (uid userEmail : String) (now : DateTime) : Except Error Staff := do
  let newDoctor ← Staff.fromMap formData
  return { newDoctor with id := uid, createdAt := now, createdBy := userEmail }

def addDoctor (formData : DynMap) (userEmail : String) (now : DateTime) (o : Outcome) (w : World Staff) :
    World Staff × Except Error String :=
  Notifier.add formData (fun uid => newDoctor formData uid userEmail now) o w

def updateDoctor (formData : DynMap) (o : Outcome) (w : World Staff) : World Staff × Except Error String :=
  Notifier.update formData (Staff.fromMap formData) o w

def removeDoctor (id : String) (o : Outcome) (w : World Staff) : World Staff × Except Error Unit :=
  Notifier.remove id o w

end DoctorsNotifier
