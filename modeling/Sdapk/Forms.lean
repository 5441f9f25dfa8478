/-
Forms: a list of named fields, each with its first value and with what its
input, formatters and validators let through. A form's value is a map from
the names (`formValue`): what the user put in, and the first value of every
field left alone.
-/
import Sdapk.Dart.Dynamic

namespace Forms

open Dart

/-- What may be in a field when its form is submitted. -/
inductive FieldKind
  /-- Text or a choice: not blank where required, else text or nothing. -/
  | text (required : Bool)
  /-- One or two digits, as can be typed; a longer age that was stored some other way is not accepted here, though the form
  takes it as long as it is not touched. -/
  | age
  /-- A day, or nothing where not required. -/
  | date (required : Bool)

def FieldKind.accepts : FieldKind → Dyn → Bool
  | text true, .str s => trim s ≠ ""
  | text false, .str _ => true
  | text false, .null => true
  | age, .str s => 1 ≤ s.toList.length ∧ s.toList.length ≤ 2 ∧ s.toList.all Char.isDigit
  | date _, .dateTime _ => true
  | date false, .null => true
  | _, _ => false

/-- A field of a form about an `R`. -/
structure FormField (R : Type) where
  name : String
  kind : FieldKind
  initialValue : R → Dyn

variable {R : Type} {fields : List (FormField R)} {f : FormField R} {record : Option R} {changes m : DynMap} {v : Dyn}

/-- What a field holds that the user has not touched. -/
def FormField.first (f : FormField R) : Option R → Dyn
  | none => .null
  | some r => f.initialValue r

/-- The value of the form about `record` with the user's `changes`. -/
def formValue (fields : List (FormField R)) (record : Option R) (changes : DynMap) : DynMap :=
  fields.map fun f => (f.name, (changes.lookup f.name).getD (f.first record))

/-- The form is submitted: every field's value is let through. -/
def accepts (fields : List (FormField R)) (m : DynMap) : Bool := fields.all fun f => f.kind.accepts (m.get f.name)

/-! ## What an accepted value is -/

theorem accepts_required (h : (FieldKind.text true).accepts v) : ∃ s, v = .str s ∧ s ≠ "" := by
  cases v with
  | str s =>
    refine ⟨s, rfl, ?_⟩
    rintro rfl
    exact absurd h (by decide)
  | _ => cases h

theorem accepts_optional (h : (FieldKind.text false).accepts v) : ∃ o, v = .ofString o := by
  cases v with
  | null => exact ⟨none, rfl⟩
  | str s => exact ⟨some s, rfl⟩
  | _ => cases h

theorem accepts_age (h : FieldKind.age.accepts v) : ∃ n : Int, v.parseInt = .ok n := by
  cases v with
  | str s =>
    simp only [FieldKind.accepts, Bool.decide_and, Bool.and_eq_true, decide_eq_true_eq] at h
    obtain ⟨h₁, -, hd⟩ := h
    obtain ⟨n, hn⟩ := tryParseInt_isSome (List.ne_nil_of_length_pos h₁) (List.all_eq_true.1 hd)
    rw [String.ofList_toList] at hn
    exact ⟨n, by simp [Dyn.parseInt, hn]⟩
  | _ => cases h

theorem accepts_date {required : Bool} (h : (FieldKind.date required).accepts v) : ∃ o, v = .ofDateTime o := by
  cases required <;> cases v with
  | null => exact ⟨none, rfl⟩
  | dateTime d => exact ⟨some d, rfl⟩
  | _ => cases h

/-- An entry under no field's name is not looked at. -/
theorem accepts_insert {k : String} (hk : k ∉ fields.map (·.name)) : accepts fields (m.insert k v) = accepts fields m := by
  have hget : ∀ f ∈ fields, (m.insert k v).get f.name = m.get f.name := by
    intro f hf
    have hne : f.name ≠ k := fun h => hk (h ▸ List.mem_map_of_mem hf)
    rw [DynMap.get_insert, if_neg hne]
  rw [Bool.eq_iff_iff, accepts, accepts, List.all_eq_true, List.all_eq_true]
  exact ⟨fun h f hf => hget f hf ▸ h f hf, fun h f hf => (hget f hf).symm ▸ h f hf⟩

/-! ## What a form's value holds -/

theorem get_formValue (hn : (fields.map (·.name)).Nodup) (hf : f ∈ fields) :
    (formValue fields record changes).get f.name = (changes.lookup f.name).getD (f.first record) := by
  induction fields with
  | nil => cases hf
  | cons g fields ih =>
    rw [List.map_cons, List.nodup_cons] at hn
    rw [formValue, List.map_cons, DynMap.get_cons]
    rcases List.mem_cons.1 hf with rfl | hf
    · rw [if_pos rfl]
    · have hne : f.name ≠ g.name := fun h => hn.1 (h ▸ List.mem_map_of_mem hf)
      rw [if_neg hne]
      exact ih hn.2 hf

theorem get_formValue_other {k : String} (hk : k ∉ fields.map (·.name)) :
    (formValue fields record changes).get k = .null := by
  induction fields with
  | nil => rfl
  | cons g fields ih =>
    rw [List.map_cons, List.mem_cons, not_or] at hk
    rw [formValue, List.map_cons, DynMap.get_cons, if_neg hk.1]
    exact ih hk.2

theorem formValue_ne_nil (h : fields ≠ []) : formValue fields record changes ≠ [] := by
  simpa [formValue] using h

end Forms
