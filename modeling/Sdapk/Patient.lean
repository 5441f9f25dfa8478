/-
`Patient`: the record, the map it is saved as (`toJson`) and the record a map
is read as (`fromMap`), be the map a form's values or a stored document.

`fromMap_toJson`: what a saved patient is loaded as (`reloaded`). Every field
comes back but the three dates.
-/
import Sdapk.Firestore

open Dart Firestore

structure Patient where
  id : String
  firstName : String
  lastName : String
  mobileNumber : String
  address : String
  gender : String
  age : Int
  alternateMobileNumber : Option String
  email : Option String
  dob : Option DateTime
  occupation : Option String
  reference : Option String
  createdAt : Option DateTime
  updatedAt : Option DateTime
  createdBy : Option String
  updatedBy : Option String
  deriving DecidableEq

namespace Patient

def toJson (p : Patient) : DynMap :=
  [ ("first_name", .str p.firstName),
    ("last_name", .str p.lastName),
    ("phone_number", .str p.mobileNumber),
    ("alternate_phone_number", .ofString p.alternateMobileNumber),
    ("email", .ofString p.email),
    ("address", .str p.address),
    ("id", .str p.id),
    ("age", .int p.age),
    ("gender", .str p.gender),
    ("reference", .ofString p.reference),
    ("occupation", .ofString p.occupation),
    ("date_of_birth", .ofDateTime p.dob),
    ("createdAt", .ofDateTime p.createdAt),
    ("updatedAt", .ofDateTime p.updatedAt),
    ("createdBy", .ofString p.createdBy),
    ("updatedBy", .ofString p.updatedBy) ]

/-- Text is cast, `age` parsed from its text, a date looked for in its text:
of these only the last does not throw. -/
def fromMap (map : DynMap) : Except Error Patient := do
  let firstName ← (map.get "first_name").asString
  let lastName ← (map.get "last_name").asString
  let mobileNumber ← (map.get "phone_number").asString
  let alternateMobileNumber ← (map.get "alternate_phone_number").asStringOrNull
  let email ← (map.get "email").asStringOrNull
  let age ← (map.get "age").parseInt
  let id ← (map.get "id").orEmpty.asString
  let address ← (map.get "address").asString
  let gender ← (map.get "gender").asString
  let occupation ← (map.get "occupation").asStringOrNull
  let reference ← (map.get "reference").asStringOrNull
  let dob := (map.get "date_of_birth").tryParseDate
  let createdAt := (map.get "createdAt").tryParseDate
  let createdBy ← (map.get "createdBy").orEmpty.asStringOrNull
  let updatedAt := (map.get "updatedAt").tryParseDate
  let updatedBy ← (map.get "updatedBy").orEmpty.asStringOrNull
  return { id, firstName, lastName, mobileNumber, address, gender, age, alternateMobileNumber, email, dob,
           occupation, reference, createdAt, updatedAt, createdBy, updatedBy }

/-- What `fromMap` makes of a map, as one reading for each field. -/
structure Reads (m : DynMap) (p : Patient) : Prop where
  firstName : m.get "first_name" = .str p.firstName
  lastName : m.get "last_name" = .str p.lastName
  mobileNumber : m.get "phone_number" = .str p.mobileNumber
  alternateMobileNumber : m.get "alternate_phone_number" = .ofString p.alternateMobileNumber
  email : m.get "email" = .ofString p.email
  age : (m.get "age").parseInt = .ok p.age
  id : (m.get "id").orEmpty = .str p.id
  address : m.get "address" = .str p.address
  gender : m.get "gender" = .str p.gender
  occupation : m.get "occupation" = .ofString p.occupation
  reference : m.get "reference" = .ofString p.reference
  dob : (m.get "date_of_birth").tryParseDate = p.dob
  createdAt : (m.get "createdAt").tryParseDate = p.createdAt
  createdBy : (m.get "createdBy").orEmpty = .ofString p.createdBy
  updatedAt : (m.get "updatedAt").tryParseDate = p.updatedAt
  updatedBy : (m.get "updatedBy").orEmpty = .ofString p.updatedBy

theorem fromMap_eq_ok {m : DynMap} {p : Patient} : fromMap m = .ok p ↔ Reads m p := by
  simp only [fromMap, bind_eq_ok, pure_eq_ok, Dyn.asString_eq_ok, Dyn.asStringOrNull_eq_ok]
  constructor
  · rintro ⟨_, h₁, _, h₂, _, h₃, _, h₄, _, h₅, _, h₆, _, h₇, _, h₈, _, h₉, _, h₁₀, _, h₁₁, _, h₁₂, _, h₁₃, rfl⟩
    exact ⟨h₁, h₂, h₃, h₄, h₅, h₆, h₇, h₈, h₉, h₁₀, h₁₁, rfl, rfl, h₁₂, rfl, h₁₃⟩
  · rintro ⟨h₁, h₂, h₃, h₄, h₅, h₆, h₇, h₈, h₉, h₁₀, h₁₁, h₁₂, h₁₃, h₁₄, h₁₅, h₁₆⟩
    refine ⟨_, h₁, _, h₂, _, h₃, _, h₄, _, h₅, _, h₆, _, h₇, _, h₈, _, h₉, _, h₁₀, _, h₁₁, _, h₁₄, _, h₁₆, ?_⟩
    rw [h₁₂, h₁₃, h₁₅]

/-- What a load makes of a saved patient: no dates, and no null where
`fromMap` has a default. -/
def reloaded (p : Patient) : Patient :=
  { p with dob := none, createdAt := none, updatedAt := none,
           createdBy := some (p.createdBy.getD ""), updatedBy := some (p.updatedBy.getD "") }

/-- **A saved patient loads**, as what `reloaded` says. -/
theorem fromMap_toJson (p : Patient) : fromMap (document p.toJson) = .ok p.reloaded := by
  rw [fromMap_eq_ok]
  constructor <;> simp [toJson, DynMap.get_cons, reloaded]

end Patient
