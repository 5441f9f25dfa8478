/-
`Staff`: the record of a doctor, the map it is saved as and the record a map
is read as. The decoder is `Patient.fromMap`'s twin, down to the dates it
looks for in the text of what it is given.
-/
import Sdapk.Firestore

open Dart Firestore

structure Staff where
  id : String
  firstName : String
  lastName : String
  mobileNumber : String
  address : String
  gender : String
  email : String
  age : Int
  doj : Option DateTime
  role : String
  education : String
  registrationNumber : Option String
  alternateMobileNumber : Option String
  specialization : Option String
  createdAt : Option DateTime
  updatedAt : Option DateTime
  createdBy : Option String
  updatedBy : Option String
  deriving DecidableEq

namespace Staff

def toJson (d : Staff) : DynMap :=
  [ ("first_name", .str d.firstName),
    ("last_name", .str d.lastName),
    ("phone_number", .str d.mobileNumber),
    ("alternate_phone_number", .ofString d.alternateMobileNumber),
    ("email", .str d.email),
    ("address", .str d.address),
    ("role", .str d.role),
    ("education", .str d.education),
    ("id", .str d.id),
    ("age", .int d.age),
    ("gender", .str d.gender),
    ("registration_number", .ofString d.registrationNumber),
    ("specialization", .ofString d.specialization),
    ("date_of_joining", .ofDateTime d.doj),
    ("createdAt", .ofDateTime d.createdAt),
    ("updatedAt", .ofDateTime d.updatedAt),
    ("createdBy", .ofString d.createdBy),
    ("updatedBy", .ofString d.updatedBy) ]

def fromMap (map : DynMap) : Except Error Staff := do
  let firstName ← (map.get "first_name").asString
  let lastName ← (map.get "last_name").asString
  let mobileNumber ← (map.get "phone_number").asString
  let alternateMobileNumber ← (map.get "alternate_phone_number").asStringOrNull
  let email ← (map.get "email").asString
  let age ← (map.get "age").parseInt
  let id ← (map.get "id").orEmpty.asString
  let education ← (map.get "education").asString
  let role ← (map.get "role").asString
  let address ← (map.get "address").asString
  let gender ← (map.get "gender").asString
  let doj := (map.get "date_of_joining").tryParseDate
  let specialization ← (map.get "specialization").orEmpty.asStringOrNull
  let registrationNumber ← (map.get "registration_number").asStringOrNull
  let createdAt := (map.get "createdAt").tryParseDate
  let createdBy ← (map.get "createdBy").orEmpty.asStringOrNull
  let updatedAt := (map.get "updatedAt").tryParseDate
  let updatedBy ← (map.get "updatedBy").orEmpty.asStringOrNull
  return { id, firstName, lastName, mobileNumber, address, gender, email, age, doj, role, education,
           registrationNumber, alternateMobileNumber, specialization, createdAt, updatedAt, createdBy, updatedBy }

/-- What `fromMap` makes of a map, as one reading for each field. -/
structure Reads (m : DynMap) (d : Staff) : Prop where
  firstName : m.get "first_name" = .str d.firstName
  lastName : m.get "last_name" = .str d.lastName
  mobileNumber : m.get "phone_number" = .str d.mobileNumber
  alternateMobileNumber : m.get "alternate_phone_number" = .ofString d.alternateMobileNumber
  email : m.get "email" = .str d.email
  age : (m.get "age").parseInt = .ok d.age
  id : (m.get "id").orEmpty = .str d.id
  education : m.get "education" = .str d.education
  role : m.get "role" = .str d.role
  address : m.get "address" = .str d.address
  gender : m.get "gender" = .str d.gender
  doj : (m.get "date_of_joining").tryParseDate = d.doj
  specialization : (m.get "specialization").orEmpty = .ofString d.specialization
  registrationNumber : m.get "registration_number" = .ofString d.registrationNumber
  createdAt : (m.get "createdAt").tryParseDate = d.createdAt
  createdBy : (m.get "createdBy").orEmpty = .ofString d.createdBy
  updatedAt : (m.get "updatedAt").tryParseDate = d.updatedAt
  updatedBy : (m.get "updatedBy").orEmpty = .ofString d.updatedBy

theorem fromMap_eq_ok {m : DynMap} {d : Staff} : fromMap m = .ok d ↔ Reads m d := by
  simp only [fromMap, bind_eq_ok, pure_eq_ok, Dyn.asString_eq_ok, Dyn.asStringOrNull_eq_ok]
  constructor
  · rintro ⟨_, h₁, _, h₂, _, h₃, _, h₄, _, h₅, _, h₆, _, h₇, _, h₈, _, h₉, _, h₁₀, _, h₁₁, _, h₁₂, _, h₁₃,
      _, h₁₄, _, h₁₅, rfl⟩
    exact ⟨h₁, h₂, h₃, h₄, h₅, h₆, h₇, h₈, h₉, h₁₀, h₁₁, rfl, h₁₂, h₁₃, rfl, h₁₄, rfl, h₁₅⟩
  · rintro ⟨h₁, h₂, h₃, h₄, h₅, h₆, h₇, h₈, h₉, h₁₀, h₁₁, h₁₂, h₁₃, h₁₄, h₁₅, h₁₆, h₁₇, h₁₈⟩
    refine ⟨_, h₁, _, h₂, _, h₃, _, h₄, _, h₅, _, h₆, _, h₇, _, h₈, _, h₉, _, h₁₀, _, h₁₁, _, h₁₃, _, h₁₄,
      _, h₁₆, _, h₁₈, ?_⟩
    rw [h₁₂, h₁₅, h₁₇]

/-- What a load makes of a saved doctor: no dates, and no null where
`fromMap` has a default. -/
def reloaded (d : Staff) : Staff :=
  { d with doj := none, specialization := some (d.specialization.getD ""), createdAt := none, updatedAt := none,
           createdBy := some (d.createdBy.getD ""), updatedBy := some (d.updatedBy.getD "") }

/-- **A saved doctor loads**, as what `reloaded` says. -/
theorem fromMap_toJson (d : Staff) : fromMap (document d.toJson) = .ok d.reloaded := by
  rw [fromMap_eq_ok]
  constructor <;> simp [toJson, DynMap.get_cons, reloaded]

end Staff
