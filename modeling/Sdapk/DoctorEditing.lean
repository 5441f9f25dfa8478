/-
Editing a doctor. Every field of the form is saved under its own key, and
what the user leaves alone is saved as it first was: from the field's own
source but for two, the education, which the form fills from the
specialization, and the role, which it fills from the registration number.
`edits_iff` says when an edit changes only what the user edited.
-/
import Sdapk.AddDoctorScreen
import Sdapk.Codec

namespace DoctorEditing

open Dart Firestore Entity Forms AddDoctorScreen
open Screen (Accepted newForm editForm)

/-! ## Fields -/

/-- What is kept in a record of a field's value: an age as the number it is
the text of, and no specialization as an empty one. -/
def savedAs (name : String) (v : Dyn) : Dyn :=
  if name = "age" then match v.parseInt with
    | .ok n => .int n
    | .error _ => .null
  else if name = "specialization" then v.orEmpty
  else v

/-- Every field of a doctor read from a form is kept as the form has it. -/
theorem toJson_field {m : DynMap} {d : Staff} (hr : Staff.Reads m d) (hd : m.get "date_of_joining" = .ofDateTime d.doj) :
    ∀ f ∈ fields, d.toJson.get f.name = savedAs f.name (m.get f.name) := by
  simp only [fields, List.forall_mem_cons]
  refine ⟨?_, ?_, ?_, ?_, ?_, ?_, ?_, ?_, ?_, ?_, ?_, ?_, ?_, by simp⟩
  · rw [hr.firstName]; rfl
  · rw [hr.lastName]; rfl
  · rw [hr.mobileNumber]; rfl
  · rw [hr.alternateMobileNumber]; rfl
  · rw [hr.email]; rfl
  · simp only [savedAs, if_true, hr.age]; rfl
  · rw [hd]; rfl
  · rw [hr.gender]; rfl
  · rw [hr.address]; rfl
  · exact hr.specialization.symm
  · rw [hr.education]; rfl
  · rw [hr.registrationNumber]; rfl
  · rw [hr.role]; rfl

/-! ## What an edit leaves -/

/-- A doctor as the app makes one: added with an accepted form, and edited with accepted ones. -/
inductive Made : Staff → Prop
  | added {changes : DynMap} {uid user : String} {now : DateTime} {d : Staff} (ha : Accepted Staff (newForm Staff changes))
      (h : DoctorsNotifier.newDoctor (newForm Staff changes) uid user now = .ok d) : Made d
  | edited {changes : DynMap} {user : String} {now : DateTime} {d d' : Staff} (hm : Made d)
      (ha : Accepted Staff (editForm d changes)) (h : edited d (some user) now (editForm d changes) = .ok d') : Made d'

/-- What an edit must keep of `d` and put into it. -/
structure Frame (d : Staff) (changes : DynMap) (user : String) (now : DateTime) (d' : Staff) : Prop where
  id : d'.id = d.id
  createdAt : d'.createdAt = d.createdAt
  createdBy : d'.createdBy = d.createdBy
  unchanged : ∀ f ∈ fields, changes.lookup f.name = none → d'.toJson.get f.name = d.toJson.get f.name
  changed : ∀ f ∈ fields, ∀ v, changes.lookup f.name = some v → d'.toJson.get f.name = savedAs f.name v
  updatedBy : d'.updatedBy = some user
  updatedAt : d'.updatedAt = some now

/-- A submission of the edit screen of `d` stores and lists one record, which is `d` but for what the user edited. -/
def EditsOnlyChanged (d : Staff) (changes : DynMap) (user : String) (now : DateTime) (w : World Staff) : Prop :=
  ∃ d' state, AddDoctorScreen.saveAndValidate (some d) (some user) (editForm d changes) now {} w =
      (⟨w.docs.set d.id (doc d'), state⟩, .ok ()) ∧ d' ∈ state ∧ Frame d changes user now d'

/-- The two fields the form fills from another's source are changed, or hold what that source holds. -/
def FilledRight (d : Staff) (changes : DynMap) : Prop :=
  (changes.lookup "education" = none → d.specialization = some d.education) ∧
    (changes.lookup "role" = none → d.registrationNumber = some d.role)

variable {d d' : Staff} {changes : DynMap} {user : String} {now : DateTime} {w : World Staff}

/-- A field the user leaves alone is kept as it was, where the two fields are filled right. -/
theorem savedAs_initialValue (hs : d.specialization ≠ none) (h : FilledRight d changes) :
    ∀ f ∈ fields, changes.lookup f.name = none → savedAs f.name (f.initialValue d) = d.toJson.get f.name := by
  obtain ⟨s, hs⟩ := Option.ne_none_iff_exists'.1 hs
  simp only [fields, List.forall_mem_cons]
  refine ⟨fun _ => rfl, fun _ => rfl, fun _ => rfl, fun _ => rfl, fun _ => rfl, fun _ => ?_, fun _ => rfl, fun _ => rfl,
    fun _ => rfl, fun _ => ?_, fun hl => congrArg Dyn.ofString (h.1 hl), fun _ => rfl,
    fun hl => congrArg Dyn.ofString (h.2 hl), by simp⟩
  · simp [savedAs]
    rfl
  · simp [savedAs, hs, Staff.toJson, DynMap.get_cons]

theorem specialization_of_reads {m : DynMap} (hr : Staff.Reads m d) : d.specialization ≠ none := by
  intro hn
  have hs := hr.specialization
  rw [hn] at hs
  cases hv : m.get "specialization" <;> rw [hv] at hs <;> cases hs

/-- A doctor the app makes has a specialization, be it an empty one, and someone who added it. -/
theorem Made.has (h : Made d) : d.specialization ≠ none ∧ d.createdBy ≠ none := by
  cases h with
  | added ha h =>
    obtain ⟨q, hq, rfl⟩ := DoctorsNotifier.newDoctor_ok h
    have hs : q.specialization ≠ none := specialization_of_reads (Staff.fromMap_eq_ok.1 hq)
    exact ⟨hs, Option.some_ne_none _⟩
  | edited hm ha h =>
    have hr := Staff.fromMap_eq_ok.1 h
    obtain ⟨-, -, hcb, -⟩ := reads_editData hr
    exact ⟨specialization_of_reads hr, hcb.trans_ne (Option.some_ne_none _)⟩

/-- What the form's value is handed on as, field by field. -/
theorem get_handedOn {f : FormField Staff} (hf : f ∈ fields) :
    (editData d (some user) now (editForm d changes)).get f.name = (changes.lookup f.name).getD (f.initialValue d) := by
  have hne : ∀ k ∉ fields.map (·.name), f.name ≠ k := fun k hk h => hk (h ▸ List.mem_map_of_mem hf)
  simp only [editData, DynMap.get_insert, if_neg (hne "id" (by decide)), if_neg (hne "updatedBy" (by decide)),
    if_neg (hne "updatedAt" (by decide)), if_neg (hne "createdBy" (by decide)), if_neg (hne "createdAt" (by decide))]
  exact get_formValue (by decide) hf

/-- **What an accepted edit saves**, field by field. -/
theorem edited_field (ha : Accepted Staff (editForm d changes)) :
    ∃ d', edited d (some user) now (editForm d changes) = .ok d' ∧
      Staff.Reads (editData d (some user) now (editForm d changes)) d' ∧
      ∀ f ∈ fields, d'.toJson.get f.name = savedAs f.name ((changes.lookup f.name).getD (f.initialValue d)) := by
  obtain ⟨d', hr, he⟩ := @edited_accepted d _ (some user) now ha
  refine ⟨d', he, hr, fun f hf => ?_⟩
  rw [← @get_handedOn d changes user now f hf]
  refine toJson_field hr ?_ f hf
  have hacc : accepts fields (editData d (some user) now (editForm d changes)) := accepts_editData.trans ha
  simp only [accepts, fields, List.all_cons, List.all_nil, Bool.and_true, Bool.and_eq_true] at hacc
  obtain ⟨doj, hdoj⟩ := accepts_date hacc.2.2.2.2.2.2.1
  rw [hdoj, ← hr.doj, hdoj, Dyn.tryParseDate_ofDateTime]

theorem education_mem : ⟨"education", .text true, fun d => .ofString d.specialization⟩ ∈ fields := by simp [fields]

theorem role_mem : ⟨"role", .text true, fun d => .ofString d.registrationNumber⟩ ∈ fields := by simp [fields]

/-- The two fields are filled right where they are saved as they were. -/
theorem filledRight_of_saved (hfield : ∀ f ∈ fields, d'.toJson.get f.name = savedAs f.name ((changes.lookup f.name).getD (f.initialValue d)))
    (he : changes.lookup "education" = none → d'.education = d.education) (hr : changes.lookup "role" = none → d'.role = d.role) :
    FilledRight d changes := by
  constructor
  · intro hl
    have h := hfield _ education_mem
    rw [hl, Option.getD_none] at h
    have h : Dyn.ofString (some d'.education) = .ofString d.specialization := h
    rw [← Dyn.ofString_injective h, he hl]
  · intro hl
    have h := hfield _ role_mem
    rw [hl, Option.getD_none] at h
    have h : Dyn.ofString (some d'.role) = .ofString d.registrationNumber := h
    rw [← Dyn.ofString_injective h, hr hl]

/-- The frame of an edit is kept where the two fields are filled right. -/
theorem frame_of_filledRight (hm : Made d) (hr : Staff.Reads (editData d (some user) now (editForm d changes)) d')
    (hfield : ∀ f ∈ fields, d'.toJson.get f.name = savedAs f.name ((changes.lookup f.name).getD (f.initialValue d)))
    (h : FilledRight d changes) : Frame d changes user now d' := by
  obtain ⟨hs, hcb⟩ := hm.has
  obtain ⟨hid, hca, hcb', hua, hub⟩ := reads_editData hr
  rw [Codec.getD_eq_self hcb] at hcb'
  refine ⟨hid, hca, hcb', fun f hf hl => ?_, fun f hf v hl => by rw [hfield f hf, hl, Option.getD_some], hub, hua⟩
  rw [hfield f hf, hl, Option.getD_none]
  exact savedAs_initialValue hs h f hf hl

/-- What the screen does of an accepted edit of a listed doctor. -/
theorem saveAndValidate_listed (ha : Accepted Staff (editForm d changes))
    (he : edited d (some user) now (editForm d changes) = .ok d') (hd : d ∈ w.state) :
    ∃ state, AddDoctorScreen.saveAndValidate (some d) (some user) (editForm d changes) now {} w =
      (⟨w.docs.set d'.id (doc d'), state⟩, .ok ()) ∧ d' ∈ state ∧ d'.id = d.id := by
  obtain ⟨hid, -⟩ := reads_editData (Staff.fromMap_eq_ok.1 he)
  have hmem : key d' ∈ w.state.map key := List.mem_map.2 ⟨d, hd, hid.symm⟩
  have ha : accepts AddDoctorScreen.fields (editForm d changes) := ha
  rw [saveAndValidate_update, if_pos ha, he]
  cases hi : w.state.findIdx? fun r => key r = key d' with
  | none => exact absurd hmem (Keyed.findIdx?_eq_none.1 hi)
  | some i =>
    obtain ⟨hlt, -⟩ := List.findIdx?_eq_some_iff_findIdx_eq.1 hi
    refine ⟨w.state.set i d', ?_, List.mem_set hlt d', hid⟩
    simp only [submitEdit, awaited, Notifier.save, Notifier.replaced, hi, Notifier.upsert, if_true]
    rfl

/-- An edit that changes only what the user edited fills the two fields right. -/
theorem EditsOnlyChanged.filledRight (h : EditsOnlyChanged d changes user now w) (hd : d ∈ w.state)
    (ha : Accepted Staff (editForm d changes)) : FilledRight d changes := by
  obtain ⟨d', he, hr, hfield⟩ := @edited_field d changes user now ha
  obtain ⟨state, hsave, -, hid⟩ := saveAndValidate_listed ha he hd
  obtain ⟨d'', state', hsave', -, hframe⟩ := h
  have hw := congrArg (·.1.docs.get d.id) (hsave.symm.trans hsave')
  simp only [hid, SortedMap.get_set_self, Option.some.injEq] at hw
  -- One document is stored, and the two fields are read back from it.
  have hget : ∀ k, (doc d').get k = (doc d'').get k := fun k => congrArg (·.get k) hw
  have heducation : d'.education = d''.education := Dyn.str.inj (hget "education")
  have hrole : d'.role = d''.role := Dyn.str.inj (hget "role")
  refine filledRight_of_saved hfield (fun hl => ?_) fun hl => ?_
  · exact heducation.trans (Dyn.str.inj (hframe.unchanged _ education_mem hl))
  · exact hrole.trans (Dyn.str.inj (hframe.unchanged _ role_mem hl))

/-- **Editing a doctor changes only what the user edited exactly where the
education and the role are filled right**: each is changed, or is what the
specialization or the registration number is. -/
theorem edits_iff (hm : Made d) (hd : d ∈ w.state) (ha : Accepted Staff (editForm d changes)) :
    EditsOnlyChanged d changes user now w ↔ FilledRight d changes := by
  refine ⟨fun h => h.filledRight hd ha, fun h => ?_⟩
  obtain ⟨d', he, hr, hfield⟩ := @edited_field d changes user now ha
  obtain ⟨state, hsave, hmem, hid⟩ := saveAndValidate_listed ha he hd
  exact ⟨d', state, hid ▸ hsave, hmem, frame_of_filledRight hm hr hfield h⟩

instance : Decidable (FilledRight d changes) := inferInstanceAs (Decidable (_ ∧ _))

/-- A form filled in with a specialization. -/
def specialist : DynMap := filledIn ++ [("specialization", .str "S")]

/-- The doctor that is added with it, at the epoch. -/
def specialistDoctor : Staff := { Codec.registeredDoctor with specialization := some "S" }

/-- The doctor is stored and listed. -/
def specialistWorld : World Staff := ⟨SortedMap.empty.set "D-1" (doc specialistDoctor), [specialistDoctor]⟩

theorem made_specialistDoctor : Made specialistDoctor := by
  have ha : Accepted Staff (newForm Staff specialist) := by decide +kernel
  have hd : DoctorsNotifier.newDoctor (newForm Staff specialist) "D-1" "U" (.reading 0) = .ok specialistDoctor := by decide +kernel
  exact .added ha hd

/-- With the education and the role changed as well, an edit of the address changes nothing else. -/
theorem edits_iff_all_three : EditsOnlyChanged specialistDoctor
    [("address", .str "B"), ("education", .str "E"), ("role", .str "Q")] "V" (.reading 1) specialistWorld :=
  (edits_iff made_specialistDoctor List.mem_cons_self (by decide +kernel)).2 (by decide +kernel)

/-- **An edit of the address changes more**: the education becomes the
specialization, and the role the registration number. -/
theorem edits_more : Made specialistDoctor ∧ Accepted Staff (editForm specialistDoctor [("address", .str "B")]) ∧
    edited specialistDoctor (some "V") (.reading 1) (editForm specialistDoctor [("address", .str "B")]) =
      .ok { specialistDoctor with address := "B", education := "S", role := "1", updatedAt := some (.reading 1),
                                  updatedBy := some "V" } ∧
    ¬ EditsOnlyChanged specialistDoctor [("address", .str "B")] "V" (.reading 1) specialistWorld := by
  have ha : Accepted Staff (editForm specialistDoctor [("address", .str "B")]) := by decide +kernel
  refine ⟨made_specialistDoctor, ha, by decide +kernel, fun h => ?_⟩
  exact absurd (h.filledRight List.mem_cons_self ha) (by decide +kernel)

end DoctorEditing
