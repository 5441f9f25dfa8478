/-
What the app's two edit screens have in common (`Screen`): a form about a
record, the notifier call they make of it once it is accepted, and what a
new record and an edited one carry over and are stamped with. The laws are
all that the developments about runs of the app know of a screen.
-/
import Sdapk.Forms
import Sdapk.Notifier

open Dart Firestore Entity Forms

/-- A notifier call whose result is awaited and not looked at. -/
def awaited {R α : Type} (x : World R × Except Error α) : World R × Except Error Unit := (x.1, x.2.map fun _ => ())

/-- An accepted edit, once it is decoded. -/
def submitEdit {R : Type} [Entity R] (decoded : Except Error R) (o : Outcome) (w : World R) : World R × Except Error Unit :=
  match decoded with
  | .error e => (w, .error e)
  | .ok r => awaited (Notifier.save r o w)

/-- The card of a record can be built. -/
def Shown {R : Type} (texts : (String → String) → R → Except Error (List String)) (r : R) : Prop :=
  ∀ toUpperCase, ∃ ts, texts toUpperCase r = .ok ts

class Screen (R : Type) extends Entity R where
  fields : List (FormField R)
  /-- The record an add saves under a new id. -/
  newRecord : DynMap → String → String → DateTime → Except Error R
  /-- The record an edit saves. -/
  edited : R → Option String → DateTime → DynMap → Except Error R
  saveAndValidate : Option R → Option String → DynMap → DateTime → Outcome → World R → World R × Except Error Unit
  texts : (String → String) → R → Except Error (List String)
  fields_nodup : (fields.map (·.name)).Nodup
  fields_ne_nil : fields ≠ []
  /-- The screen adds where it has no record. -/
  saveAndValidate_none {user form now o w} : saveAndValidate none user form now o w =
    if accepts fields form then
      match nonNull user with
      | .error e => (w, .error e)
      | .ok user => awaited (Notifier.add form (fun uid => newRecord form uid user now) o w)
    else (w, .ok ())
  /-- The screen updates where it has one. -/
  saveAndValidate_some {r user form now o w} : saveAndValidate (some r) user form now o w =
    if accepts fields form then submitEdit (edited r user now form) o w else (w, .ok ())
  newRecord_stamped {form uid user now r} : newRecord form uid user now = .ok r →
    key r = uid ∧ (audit r).createdAt = some now ∧ (audit r).createdBy = some user
  edited_keeps {r user now form r'} : edited r user now form = .ok r' →
    key r' = key r ∧ (audit r').createdAt = (audit r).createdAt ∧ (audit r').createdBy = some ((audit r).createdBy.getD "")
  newRecord_ok {changes uid user now} : accepts fields (formValue fields none changes) →
    ∃ r, newRecord (formValue fields none changes) uid user now = .ok r ∧ Shown texts r ∧
      audit r = { createdAt := some now, createdBy := some user, updatedAt := none, updatedBy := some "" }
  edited_ok {r changes user now} : accepts fields (formValue fields (some r) changes) →
    ∃ r', edited r (some user) now (formValue fields (some r) changes) = .ok r' ∧
      audit r' = { createdAt := (audit r).createdAt, createdBy := some ((audit r).createdBy.getD ""),
                   updatedAt := some now, updatedBy := some user }
  edited_shown {r user now form r'} : accepts fields form → edited r user now form = .ok r' → Shown texts r'
  reloaded_shown {r} : Shown texts r → Shown texts (reloaded r)

namespace Screen

variable {R : Type} [Screen R]

/-- The value of the form about a new record. -/
def newForm (R : Type) [Screen R] (changes : DynMap) : DynMap := formValue (R := R) fields none changes

/-- The value of the form about `r`. -/
def editForm (r : R) (changes : DynMap) : DynMap := formValue fields (some r) changes

/-- The screen's form is accepted. -/
abbrev Accepted (R : Type) [Screen R] (form : DynMap) : Prop := accepts (R := R) fields form

theorem newForm_ne_nil {changes : DynMap} : newForm R changes ≠ [] := formValue_ne_nil fields_ne_nil

end Screen
