/-
What the app's two kinds of record, `Patient` and `Staff`, have in common:
an id with a letter in front of a number, four audit fields, the map they
are saved as and what a load makes of it. The notifiers and the screens are
written against these alone.
-/
import Sdapk.Patient
import Sdapk.Staff

open Dart Firestore

/-- Who made and who last changed a record, and when. -/
structure Audit where
  createdAt : Option DateTime
  createdBy : Option String
  updatedAt : Option DateTime
  updatedBy : Option String
  deriving DecidableEq

/-- The audit fields after a load: the dates are gone. -/
def Audit.reloaded (a : Audit) : Audit :=
  { createdAt := none, createdBy := some (a.createdBy.getD ""), updatedAt := none, updatedBy := some (a.updatedBy.getD "") }

class Entity (R : Type) where
  /-- What stands in an id before the number. -/
  idPrefix : String
  /-- A record's `id`, the name it is stored under. -/
  key : R → String
  audit : R → Audit
  toJson : R → DynMap
  fromMap : DynMap → Except Error R
  /-- What a load makes of a saved record. -/
  reloaded : R → R
  idPrefix_length : idPrefix.toList.length = 2
  toJson_id r : (toJson r).get "id" = .str (key r)
  toJson_createdAt r : (toJson r).get "createdAt" = .ofDateTime (audit r).createdAt
  toJson_createdBy r : (toJson r).get "createdBy" = .ofString (audit r).createdBy
  toJson_updatedAt r : (toJson r).get "updatedAt" = .ofDateTime (audit r).updatedAt
  toJson_updatedBy r : (toJson r).get "updatedBy" = .ofString (audit r).updatedBy
  lookup_createdAt r : ((toJson r).lookup "createdAt").isSome
  fromMap_toJson r : fromMap (document (toJson r)) = .ok (reloaded r)
  key_reloaded r : key (reloaded r) = key r
  audit_reloaded r : audit (reloaded r) = (audit r).reloaded

instance : Entity Patient where
  idPrefix := "P-"
  key p := p.id
  audit p := { createdAt := p.createdAt, createdBy := p.createdBy, updatedAt := p.updatedAt, updatedBy := p.updatedBy }
  toJson := Patient.toJson
  fromMap := Patient.fromMap
  reloaded := Patient.reloaded
  idPrefix_length := by decide
  toJson_id _ := rfl
  toJson_createdAt _ := rfl
  toJson_createdBy _ := rfl
  toJson_updatedAt _ := rfl
  toJson_updatedBy _ := rfl
  lookup_createdAt _ := rfl
  fromMap_toJson := Patient.fromMap_toJson
  key_reloaded _ := rfl
  audit_reloaded _ := rfl

instance : Entity Staff where
  idPrefix := "D-"
  key d := d.id
  audit d := { createdAt := d.createdAt, createdBy := d.createdBy, updatedAt := d.updatedAt, updatedBy := d.updatedBy }
  toJson := Staff.toJson
  fromMap := Staff.fromMap
  reloaded := Staff.reloaded
  idPrefix_length := by decide
  toJson_id _ := rfl
  toJson_createdAt _ := rfl
  toJson_createdBy _ := rfl
  toJson_updatedAt _ := rfl
  toJson_updatedBy _ := rfl
  lookup_createdAt _ := rfl
  fromMap_toJson := Staff.fromMap_toJson
  key_reloaded _ := rfl
  audit_reloaded _ := rfl

namespace Entity

variable {R : Type} [Entity R]

attribute [simp] toJson_id toJson_createdAt toJson_createdBy toJson_updatedAt toJson_updatedBy key_reloaded audit_reloaded

/-- The document a record is saved as. -/
def doc (r : R) : Doc := document (toJson r)

@[simp] theorem get_doc {r : R} {k : String} : (doc r).get k = stored ((toJson r).get k) := get_document

@[simp] theorem fromMap_doc (r : R) : fromMap (doc r) = .ok (reloaded r) := fromMap_toJson r

theorem doc_dated (r : R) : ((doc r).lookup "createdAt").isSome := by
  rw [doc, lookup_document]
  simpa using lookup_createdAt r

theorem get_doc_createdAt {r : R} {a : Option DateTime} (h : (audit r).createdAt = a) :
    (doc r).get "createdAt" = stored (.ofDateTime a) := by
  rw [get_doc, toJson_createdAt, h]

/-! ## Ids -/

/-- The id with the number `n`. -/
def idOf (R : Type) [Entity R] (n : Int) : String := idPrefix R ++ n.repr

theorem substring_idOf (n : Int) : substring (idOf R n) 2 = n.repr := by
  rw [substring, idOf, String.toList_append, ← idPrefix_length (R := R), List.drop_left, String.ofList_toList]

theorem idOf_length (n : Int) : ¬ (idOf R n).toList.length < 2 := by
  rw [idOf, String.toList_append, List.length_append, idPrefix_length]
  omega

theorem idOf_injective : Function.Injective (idOf R) := fun n n' h => by
  have := congrArg (substring · 2) h
  simp only [substring_idOf] at this
  exact repr_injective this

theorem append_lt_append_left {cs as bs : List Char} : cs ++ as < cs ++ bs ↔ as < bs := by
  induction cs with
  | nil => rfl
  | cons c cs ih => simpa [List.cons_lt_cons_iff] using ih

/-- Ids stand in the order of the texts of their numbers. -/
theorem idOf_lt_idOf {n n' : Int} : idOf R n < idOf R n' ↔ n.repr < n'.repr := by
  simp only [idOf, String.lt_iff_toList_lt, String.toList_append, append_lt_append_left]

/-- The number in an id, `0` where there is none. -/
def numberOf (id : String) : Int := (tryParseInt (substring id 2)).getD 0

@[simp] theorem numberOf_idOf (n : Int) : numberOf (idOf R n) = n := by
  rw [numberOf, substring_idOf, tryParseInt_repr, Option.getD_some]

end Entity
