/-
Two clients that edit one patient. An update writes the whole document, made
of the entry that its form was opened on, and so writes over what the other
client has saved since that entry was read. `carries_iff` says in which runs
the document is left with both edits.
-/
import Sdapk.Editing
import Sdapk.Loadable

namespace LostUpdate

open Dart Firestore Entity Forms Screen Register Runs System

/-- An edit: whose it is, and what the user puts into the form. -/
structure Edit where
  client : Nat
  changes : DynMap
  user : String

/-- Loads and the two edits, with the entry that the form of each edit was
opened on. Which loads, lists and forms hold what was read after which edit's
write, no step looks at. -/
structure Desk (ι : Type) extends System (ι ⊕ Bool) Patient where
  form : Bool → Option Patient
  readAfter : ι → Bool → Bool
  listedAfter : Nat → Bool → Bool
  formAfter : Bool → Bool → Bool

inductive Act (ι : Type)
  | move (m : Move (ι ⊕ Bool))
  /-- The form of an edit is opened on the entry at an index. -/
  | openForm (edit : Bool) (i : Nat)
  | submit (edit : Bool) (now : DateTime)

def Writing : Stage Patient → Bool
  | .update _ => true
  | _ => false

variable {ι : Type}

/-- Where an edit is. -/
def Desk.edit (s : Desk ι) (e : Bool) : Stage Patient := (s.calls (.inr e)).stage

/-- The remote call of an act goes through. -/
def GoesThrough : Act ι → Prop
  | .move m => m.ok
  | _ => True

/-- `e` writes where the other edit has. -/
def Second (s : Desk ι) (e : Bool) : Act ι → Prop
  | .move m => m.call = .inr e ∧ Writing (s.edit e) ∧ Stored (s.edit !e)
  | _ => False

section

variable (id : String) (edits : Bool → Edit)

/-- A form is opened on an entry of the patient, and submitted, as long as its edit is not under way. -/
def step [DecidableEq ι] (s : Desk ι) : Act ι → Desk ι
  | .move m =>
    let s' := { s with toSystem := System.step s.toSystem m }
    match m.call, (s.calls m.call).stage with
    | .inl i, .load => { s' with readAfter := Function.update s.readAfter i fun e => Stored (s.edit e) }
    | .inl i, .assign _ =>
      { s' with listedAfter := Function.update s.listedAfter (s.calls m.call).client (s.readAfter i) }
    | _, _ => s'
  | .openForm e i =>
    match (s.lists (edits e).client)[i]? with
    | some p =>
      if p.id = id ∧ s.edit e = .idle then
        { s with form := Function.update s.form e p
                 formAfter := Function.update s.formAfter e (s.listedAfter (edits e).client) }
      else s
    | none => s
  | .submit e now =>
    match s.form e with
    | some p =>
      if s.edit e = .idle then
        let stage := App.editStage p (editForm p (edits e).changes) (edits e).user now
        { s with calls := Function.update s.calls (.inr e) ⟨(edits e).client, stage⟩ }
      else s
    | none => s

/-- No load and no edit has begun. -/
def start (docs : Collection) (lists : Nat → List Patient) (loads : ι → Nat) (clock : DateTime) : Desk ι where
  docs
  lists
  calls
    | .inl i => ⟨loads i, .load⟩
    | .inr e => ⟨(edits e).client, .idle⟩
  clock
  form _ := none
  readAfter _ _ := false
  listedAfter _ _ := false
  formAfter _ _ := false

/-- What is changed of the given fields is in a document. -/
def Has (fs : List (FormField Patient)) (changes : DynMap) (d : Doc) : Prop :=
  ∀ f ∈ fs, ∀ v ∈ changes.lookup f.name, d.get f.name = Editing.savedAs f.name v

/-- No field is changed by both. -/
def Separate (changes changes' : DynMap) : Prop :=
  ∀ f ∈ AddPatientScreen.fields, changes.lookup f.name = none ∨ changes'.lookup f.name = none

/-- The patient's document holds both edits. -/
def Carries (fs : List (FormField Patient)) (s : Desk ι) : Prop :=
  ∃ d, s.docs.get id = some d ∧ ∀ e, Has fs (edits e).changes d

/-- What has been written of the edits is in the document. -/
def Kept (fs : List (FormField Patient)) (s : Desk ι) : Prop :=
  ∀ e, Stored (s.edit e) → ∃ d, s.docs.get id = some d ∧ Has fs (edits e).changes d

/-- The form of the second edit to write was opened on an entry that held what the first has changed. -/
def FormHas (fs : List (FormField Patient)) (s : Desk ι) (a : Act ι) : Prop :=
  ∀ e, Second s e a → ∀ p ∈ s.form e, Has fs (edits !e).changes (doc p)

end

/-- The form of the second edit to write was opened on an entry read after the first has written. -/
def FormRead (s : Desk ι) (a : Act ι) : Prop := ∀ e, Second s e a → s.formAfter e !e

/-- The fields of the form that a load leaves as they were saved. -/
def undated : List (FormField Patient) := AddPatientScreen.fields.filter (·.name ≠ "date_of_birth")

/-! ## What a document has of an edit -/

section

variable {fs : List (FormField Patient)} {changes changes' : DynMap} {p r : Patient} {user : String} {now : DateTime}

theorem get_doc_of_edited (ha : Accepted Patient (editForm p changes))
    (h : edited p (some user) now (editForm p changes) = .ok r) : ∀ f ∈ AddPatientScreen.fields,
    (doc r).get f.name = ((changes.lookup f.name).map (Editing.savedAs f.name)).getD ((doc p).get f.name) := by
  obtain ⟨q, hr, hd, hq⟩ := @AddPatientScreen.edited_accepted p changes user now ha
  obtain rfl := Except.ok.inj (hq.symm.trans h)
  exact Editing.get_doc_edited hr hd

theorem has_of_edited (hfs : fs ⊆ AddPatientScreen.fields) (ha : Accepted Patient (editForm p changes))
    (h : edited p (some user) now (editForm p changes) = .ok r) : Has fs changes (doc r) := by
  intro f hf v hv
  rw [get_doc_of_edited ha h f (hfs hf), Option.mem_def.1 hv]
  rfl

/-- Of what it does not change, an edit saves what its entry held. -/
theorem has_other_of_edited (hfs : fs ⊆ AddPatientScreen.fields) (hd : Separate changes changes')
    (ha : Accepted Patient (editForm p changes)) (h : edited p (some user) now (editForm p changes) = .ok r) :
    Has fs changes' (doc r) ↔ Has fs changes' (doc p) := by
  have hget : ∀ f ∈ fs, ∀ v ∈ changes'.lookup f.name, (doc r).get f.name = (doc p).get f.name := by
    intro f hf v hv
    have hnone : changes.lookup f.name = none := by
      rcases hd f (hfs hf) with hn | hn
      · exact hn
      · rw [Option.mem_def, hn] at hv
        cases hv
    rw [get_doc_of_edited ha h f (hfs hf), hnone]
    rfl
  exact ⟨fun h f hf v hv => (hget f hf v hv).symm.trans (h f hf v hv),
    fun h f hf v hv => (hget f hf v hv).trans (h f hf v hv)⟩

theorem undated_subset : undated ⊆ AddPatientScreen.fields := fun _ hf => (List.mem_filter.1 hf).1

theorem get_doc_reloaded (p : Patient) : ∀ f ∈ undated, (doc (reloaded p)).get f.name = (doc p).get f.name := by
  have h : ∀ f ∈ AddPatientScreen.fields, f.name ≠ "date_of_birth" → (doc (reloaded p)).get f.name = (doc p).get f.name := by
    simp only [AddPatientScreen.fields, List.forall_mem_cons]
    exact ⟨fun _ => rfl, fun _ => rfl, fun _ => rfl, fun _ => rfl, fun _ => rfl, fun _ => rfl, fun h => absurd rfl h,
      fun _ => rfl, fun _ => rfl, fun _ => rfl, fun _ => rfl, by simp⟩
  intro f hf
  obtain ⟨hf, hne⟩ := List.mem_filter.1 hf
  exact h f hf (of_decide_eq_true hne)

theorem Has.reloaded (h : Has undated changes (doc p)) : Has undated changes (doc (reloaded p)) :=
  fun f hf v hv => (get_doc_reloaded p f hf).trans (h f hf v hv)

end

variable {id : String} {edits : Bool → Edit} {fs : List (FormField Patient)} {s s' : Desk ι} {a : Act ι}
  {acts : List (Act ι)} {e : Bool} {docs : Collection} {lists : Nat → List Patient} {loads : ι → Nat} {clock : DateTime}

/-- Once both are written. -/
theorem kept_iff_carries (h : ∀ e, Stored (s.edit e)) : Kept id edits fs s ↔ Carries id edits fs s := by
  constructor
  · intro hk
    obtain ⟨d, hd, hhas⟩ := hk true (h true)
    obtain ⟨d', hd', hhas'⟩ := hk false (h false)
    obtain rfl := Option.some.inj (hd.symm.trans hd')
    exact ⟨d, hd, Bool.rec hhas' hhas⟩
  · rintro ⟨d, hd, hhas⟩ e -
    exact ⟨d, hd, hhas e⟩

/-! ## What a write leaves -/

/-- What an edit saves, made in the form that was opened on `form`. -/
def Saves (id : String) (edit : Edit) (form : Option Patient) (r : Patient) : Prop :=
  ∃ p now, form = some p ∧ p.id = id ∧ Accepted Patient (editForm p edit.changes) ∧
    edited p (some edit.user) now (editForm p edit.changes) = .ok r

theorem Saves.key {edit : Edit} {form : Option Patient} {r : Patient} (h : Saves id edit form r) : key r = id := by
  obtain ⟨p, now, -, hid, -, hr⟩ := h
  exact (edited_keeps hr).1.trans hid

/-- A step that is no write. -/
structure Frame (s : Desk ι) (a : Act ι) (s' : Desk ι) : Prop where
  second : ∀ e, ¬ Second s e a
  docs : s'.docs = s.docs
  stored : ∀ e, Stored (s'.edit e) ↔ Stored (s.edit e)

/-- A step in which `e` writes `r`. -/
structure Writes (id : String) (edits : Bool → Edit) (s : Desk ι) (a : Act ι) (s' : Desk ι) (e : Bool) (r : Patient) : Prop where
  saves : Saves id (edits e) (s.form e) r
  second : ∀ e', Second s e' a ↔ e' = e ∧ Stored (s.edit !e)
  docs : s'.docs = s.docs.set id (doc r)
  before : ¬ Stored (s.edit e)
  after : Stored (s'.edit e)
  other : s'.edit (!e) = s.edit !e

theorem not_stored_of_second (h : Second s e a) : ¬ Stored (s.edit e) := by
  cases a with
  | move m =>
    obtain ⟨-, hw, -⟩ := h
    generalize s.edit e = stage at hw ⊢
    cases stage <;> first | exact not_false | cases hw
  | _ => cases h

section

variable {r : Patient} (hfs : fs ⊆ AddPatientScreen.fields) (hdisj : ∀ e, Separate (edits e).changes (edits !e).changes)
include hfs

/-- A write keeps both edits where what is written has the other's values. -/
theorem Writes.kept_iff (hw : Writes id edits s a s' e r) :
    Kept id edits fs s' ↔ (Stored (s.edit !e) → Has fs (edits !e).changes (doc r)) := by
  obtain ⟨p, now, -, -, ha, hr⟩ := hw.saves
  have hget : s'.docs.get id = some (doc r) := hw.docs ▸ SortedMap.get_set_self
  constructor
  · intro h hs
    obtain ⟨d, hd, hhas⟩ := h (!e) (hw.other ▸ hs)
    obtain rfl := Option.some.inj (hget.symm.trans hd)
    exact hhas
  · intro h e' he'
    refine ⟨doc r, hget, ?_⟩
    rcases Bool.eq_or_eq_not e' e with rfl | rfl
    · exact has_of_edited hfs ha hr
    · exact h (hw.other ▸ he')

include hdisj

/-- What is written has the other's values where the entry had them. -/
theorem Writes.formHas_iff (hw : Writes id edits s a s' e r) :
    FormHas edits fs s a ↔ (Stored (s.edit !e) → Has fs (edits !e).changes (doc r)) := by
  obtain ⟨p, now, hform, -, ha, hr⟩ := hw.saves
  have hother := has_other_of_edited hfs (hdisj e) ha hr
  constructor
  · intro h hs
    exact hother.2 (h e ((hw.second e).2 ⟨rfl, hs⟩) p hform)
  · intro h e' he' q hq
    obtain ⟨rfl, hs⟩ := (hw.second e').1 he'
    obtain rfl : p = q := Option.some.inj (hform.symm.trans hq)
    exact hother.1 (h hs)

end

/-! ## Where the calls are -/

/-- Where a load is. -/
inductive Loads : Stage Patient → Prop
  | load : Loads .load
  | assign {ps : List Patient} : Loads (.assign (ps.map doc))
  | loaded : Loads .loaded

/-- Where an edit is. -/
inductive Fits (id : String) (edit : Edit) (form : Option Patient) : Stage Patient → Prop
  | idle : Fits id edit form .idle
  | update {r : Patient} (h : Saves id edit form r) : Fits id edit form (.update r)
  | replace {r : Patient} : Fits id edit form (.replace r)
  | updated {r : Patient} : Fits id edit form (.updated r)
  | unlisted {r : Patient} : Fits id edit form (.unlisted r)

/-- The documents are saved patients, loads load them, and edits are of the patient. -/
structure Inv (id : String) (edits : Bool → Edit) (s : Desk ι) : Prop where
  saved : Saved Patient s.docs
  loads : ∀ i, Loads (s.calls (.inl i)).stage
  client : ∀ e, (s.calls (.inr e)).client = (edits e).client
  fits : ∀ e, Fits id (edits e) (s.form e) (s.edit e)
  form : ∀ e, ∀ p ∈ s.form e, p.id = id

theorem inv_start (h : Saved Patient docs) : Inv id edits (start edits docs lists loads clock) where
  saved := h
  loads _ := .load
  client _ := rfl
  fits _ := .idle
  form _ _ hp := by cases hp

/-! ## Reading after the other's write -/

/-- What is read, listed or in the form of the other edit, and was read after
`e` has written, has what `e` has changed. -/
structure Seen (id : String) (edits : Bool → Edit) (e : Bool) (s : Desk ι) : Prop where
  stored : Stored (s.edit e) → ∀ d ∈ s.docs.get id, Has undated (edits e).changes d
  read : ∀ i docs, (s.calls (.inl i)).stage = .assign docs → s.readAfter i e →
    ∀ d ∈ docs, d.get "id" = .str id → Has undated (edits e).changes d
  listed : s.listedAfter (edits !e).client e →
    ∀ p ∈ s.lists (edits !e).client, p.id = id → Has undated (edits e).changes (doc p)
  form : s.formAfter (!e) e → ∀ p ∈ s.form !e, Has undated (edits e).changes (doc p)

/-- What a load lists of what it read. -/
theorem Seen.reloaded {ps : List Patient} {p : Patient} {changes : DynMap}
    (h : ∀ d ∈ ps.map doc, d.get "id" = .str id → Has undated changes d) (hp : p ∈ ps.map reloaded) (hid : p.id = id) :
    Has undated changes (doc p) := by
  obtain ⟨q, hq, rfl⟩ := List.mem_map.1 hp
  have hkey : (doc q).get "id" = .str id := by
    rw [get_doc, toJson_id, ← hid]
    rfl
  exact (h (doc q) (List.mem_map_of_mem hq) hkey).reloaded

/-- What a load reads of the patient. -/
theorem Seen.query (hseen : Seen id edits e s) (h : Inv id edits s) (hstored : Stored (s.edit e)) :
    ∀ d ∈ query s.docs "createdAt" 25, d.get "id" = .str id → Has undated (edits e).changes d := by
  intro d hd hid
  obtain ⟨k, hk⟩ := mem_query hd
  obtain ⟨q, hq⟩ := h.saved _ hk
  obtain ⟨rfl, rfl⟩ := Prod.mk.inj hq
  have hkey : key q = id := by simpa using hid
  exact hseen.stored hstored _ (SortedMap.get_eq_some.2 (hkey ▸ hk))

/-- Nothing is known of the document that an edit writes over once the edit has been written. -/
def SeenFirst (id : String) (edits : Bool → Edit) (s : Desk ι) : Prop := ∀ e, ¬ Stored (s.edit !e) → Seen id edits e s

theorem formHas_of_read (hseen : SeenFirst id edits s) (hr : FormRead s a) : FormHas edits undated s a := by
  intro e hsecond p hp
  have hfirst : Seen id edits (!e) s := hseen (!e) (by simpa using not_stored_of_second hsecond)
  exact hfirst.form (by simpa using hr e hsecond) p (by simpa using hp)

/-! ## What a step is -/

variable [DecidableEq ι]

/-- **What an act comes to**, where its remote call goes through. -/
inductive Steps (id : String) (edits : Bool → Edit) (s : Desk ι) : Act ι → Desk ι → Prop
  | read {m : Move (ι ⊕ Bool)} {i : ι} {client : Nat} (hm : m.call = .inl i) (hc : s.calls (.inl i) = ⟨client, .load⟩) :
      Steps id edits s (.move m)
        { s with calls := Function.update s.calls (.inl i) ⟨client, .assign (query s.docs "createdAt" 25)⟩
                 readAfter := Function.update s.readAfter i fun e => Stored (s.edit e) }
  | assigned {m : Move (ι ⊕ Bool)} {i : ι} {client : Nat} {ps : List Patient} (hm : m.call = .inl i)
      (hc : s.calls (.inl i) = ⟨client, .assign (ps.map doc)⟩) :
      Steps id edits s (.move m)
        { s with lists := Function.update s.lists client (ps.map reloaded)
                 calls := Function.update s.calls (.inl i) ⟨client, .loaded⟩
                 listedAfter := Function.update s.listedAfter client (s.readAfter i) }
  | wrote {m : Move (ι ⊕ Bool)} {e : Bool} {r : Patient} (hm : m.call = .inr e)
      (hc : s.calls (.inr e) = ⟨(edits e).client, .update r⟩) (hr : Saves id (edits e) (s.form e) r) :
      Steps id edits s (.move m)
        { s with docs := s.docs.set id (doc r)
                 calls := Function.update s.calls (.inr e) ⟨(edits e).client, .replace r⟩ }
  | replaced {m : Move (ι ⊕ Bool)} {e : Bool} {r : Patient} {l : List Patient} {stage : Stage Patient} (hm : m.call = .inr e)
      (hc : s.calls (.inr e) = ⟨(edits e).client, .replace r⟩) (hs : stage = .updated r ∨ stage = .unlisted r) :
      Steps id edits s (.move m)
        { s with lists := Function.update s.lists (edits e).client l
                 calls := Function.update s.calls (.inr e) ⟨(edits e).client, stage⟩ }
  | opened {e : Bool} {i : Nat} {p : Patient} (hp : p ∈ s.lists (edits e).client) (hid : p.id = id) (he : s.edit e = .idle) :
      Steps id edits s (.openForm e i)
        { s with form := Function.update s.form e p
                 formAfter := Function.update s.formAfter e (s.listedAfter (edits e).client) }
  | submitted {e : Bool} {now : DateTime} {r : Patient} (hr : Saves id (edits e) (s.form e) r) (he : s.edit e = .idle) :
      Steps id edits s (.submit e now)
        { s with calls := Function.update s.calls (.inr e) ⟨(edits e).client, .update r⟩ }
  | idle {a : Act ι} (h : ∀ e, ¬ Second s e a) : Steps id edits s a s

theorem steps_load {m : Move (ι ⊕ Bool)} {i : ι} (h : Inv id edits s) (hm : m.call = .inl i) (hok : m.ok) :
    Steps id edits s (.move m) (step id edits s (.move m)) := by
  obtain ⟨client, stage, hc⟩ : ∃ client stage, s.calls (.inl i) = ⟨client, stage⟩ := ⟨_, _, rfl⟩
  have hload := h.loads i
  rw [hc] at hload
  cases hload with
  | load =>
    simp only [step, hm, hc, System.step, seen, advance, hok, if_true, readings, Function.update_eq_self]
    exact .read hm hc
  | assign =>
    simp only [step, hm, hc, System.step, seen, advance, mapM_fromMap, readings]
    exact .assigned hm hc
  | loaded =>
    have hi : Function.update s.calls (.inl i) ⟨client, .loaded⟩ = s.calls := hc ▸ Function.update_eq_self _ _
    simp only [step, hm, hc, System.step, seen, advance, readings, Function.update_eq_self, hi]
    exact .idle fun e h => by cases hm.symm.trans h.1

theorem steps_edit {m : Move (ι ⊕ Bool)} (h : Inv id edits s) (hm : m.call = .inr e) (hok : m.ok) :
    Steps id edits s (.move m) (step id edits s (.move m)) := by
  have hfits := h.fits e
  obtain ⟨stage, hc⟩ : ∃ stage, s.calls (.inr e) = ⟨(edits e).client, stage⟩ := ⟨_, by rw [← h.client e]⟩
  have hstage : s.edit e = stage := congrArg Call.stage hc
  rw [hstage] at hfits
  have hidle : ¬ Writing stage → Function.update s.calls (.inr e) ⟨(edits e).client, stage⟩ = s.calls ∧
      ∀ e', ¬ Second s e' (.move m) := by
    refine fun hw => ⟨hc ▸ Function.update_eq_self _ _, fun e' h => ?_⟩
    obtain rfl : e = e' := Sum.inr.inj (hm.symm.trans h.1)
    exact hw (hstage ▸ h.2.1)
  cases hfits with
  | update hr =>
    obtain ⟨p, now, hf, hid, ha, hr'⟩ := hr
    have hk : key _ = id := (edited_keeps hr').1.trans hid
    simp only [step, hm, hc, System.step, seen, advance, Notifier.upsert, hok, if_true, readings, Function.update_eq_self, hk]
    exact .wrote hm hc ⟨p, now, hf, hid, ha, hr'⟩
  | @replace r =>
    simp only [step, hm, hc, System.step, seen, advance, readings]
    cases Notifier.replaced r (s.lists (edits e).client) with
    | ok l => exact .replaced hm hc (.inl rfl)
    | error _ => exact .replaced hm hc (.inr rfl)
  | idle | updated | unlisted =>
    obtain ⟨hcalls, hsecond⟩ := hidle Bool.false_ne_true
    simp only [step, hm, hc, System.step, seen, advance, readings, Function.update_eq_self, hcalls]
    exact .idle hsecond

theorem steps (h : Inv id edits s) (ha : GoesThrough a) : Steps id edits s a (step id edits s a) := by
  cases a with
  | move m =>
    cases hm : m.call with
    | inl i => exact steps_load h hm ha
    | inr e => exact steps_edit h hm ha
  | openForm e i =>
    simp only [step]
    split
    · next p hp =>
      split
      · next hid => exact .opened (List.mem_of_getElem? hp) hid.1 hid.2
      · exact .idle fun _ => not_false
    · exact .idle fun _ => not_false
  | submit e now =>
    simp only [step]
    split
    · next p hp =>
      split
      · next he =>
        by_cases ha : Accepted Patient (editForm p (edits e).changes)
        · obtain ⟨q, -, -, hq⟩ := @AddPatientScreen.edited_accepted p (edits e).changes (edits e).user now ha
          have hq : edited p (some (edits e).user) now (editForm p (edits e).changes) = _ := hq
          simp only [App.editStage, if_pos ha, hq, updateStage]
          exact .submitted ⟨p, now, hp, h.form e p hp, ha, hq⟩ he
        · have hc : Function.update s.calls (.inr e) ⟨(edits e).client, .idle⟩ = s.calls := by
            rw [← h.client e, ← he]
            exact Function.update_eq_self _ _
          simp only [App.editStage, if_neg ha, hc]
          exact .idle fun _ => not_false
      · exact .idle fun _ => not_false
    · exact .idle fun _ => not_false

/-! ## One step -/

section

variable {i : ι} {client : Nat} {stage : Stage Patient}

theorem Inv.load (h : Inv id edits s) (hl : Loads stage) (hd : s'.docs = s.docs) (hf : s'.form = s.form)
    (hc : s'.calls = Function.update s.calls (.inl i) ⟨client, stage⟩) : Inv id edits s' := by
  refine ⟨hd ▸ h.saved, fun j => ?_, fun e => ?_, fun e => ?_, hf ▸ h.form⟩
  · by_cases hj : j = i
    · simpa [hc, hj] using hl
    · simpa [hc, hj] using h.loads j
  · simpa [hc] using h.client e
  · simpa [Desk.edit, hc, hf] using h.fits e

theorem Inv.edit (h : Inv id edits s) (hd : Saved Patient s'.docs) (hfit : Fits id (edits e) (s.form e) stage)
    (hf : s'.form = s.form) (hc : s'.calls = Function.update s.calls (.inr e) ⟨(edits e).client, stage⟩) :
    Inv id edits s' := by
  refine ⟨hd, fun j => ?_, fun e' => ?_, fun e' => ?_, hf ▸ h.form⟩
  · simpa [hc] using h.loads j
  · by_cases he : e' = e
    · simp [hc, he]
    · simpa [hc, he] using h.client e'
  · by_cases he : e' = e
    · simpa [Desk.edit, hc, hf, he] using hfit
    · simpa [Desk.edit, hc, hf, he] using h.fits e'

end

theorem inv_step (h : Inv id edits s) (hs : Steps id edits s a s') : Inv id edits s' := by
  cases hs with
  | @read m i client hm hc =>
    obtain ⟨ps, hps⟩ := h.saved.exists_records
    exact h.load (query_eq hps ▸ .assign) rfl rfl rfl
  | assigned => exact h.load .loaded rfl rfl rfl
  | wrote hm hc hr => exact h.edit (hr.key ▸ h.saved.set) .replace rfl rfl
  | replaced hm hc hstage =>
    rcases hstage with rfl | rfl
    · exact h.edit h.saved .updated rfl rfl
    · exact h.edit h.saved .unlisted rfl rfl
  | @opened e i p hp hid he =>
    refine ⟨h.saved, h.loads, h.client, fun e' => ?_, fun e' q hq => ?_⟩
    · by_cases he' : e' = e
      · subst he'
        show Fits _ _ _ (s.edit e')
        exact he ▸ .idle
      · simpa [Desk.edit, he'] using h.fits e'
    · by_cases he' : e' = e
      · subst he'
        obtain rfl : p = q := by simpa using hq
        exact hid
      · exact h.form e' q (by simpa [he'] using hq)
  | submitted hr he => exact h.edit h.saved (.update hr) rfl rfl
  | idle => exact h

theorem Steps.frame_or_writes (hs : Steps id edits s a s') : Frame s a s' ∨ ∃ e r, Writes id edits s a s' e r := by
  cases hs with
  | read hm | assigned hm =>
    refine .inl ⟨fun e h => ?_, rfl, fun e => by simp [Desk.edit]⟩
    cases hm.symm.trans h.1
  | @wrote m e r hm hc hr =>
    have hstage : s.edit e = .update r := congrArg Call.stage hc
    refine .inr ⟨e, r, hr, fun e' => ?_, rfl, ?_, ?_, ?_⟩
    · constructor
      · intro h
        obtain rfl : e = e' := Sum.inr.inj (hm.symm.trans h.1)
        exact ⟨rfl, h.2.2⟩
      · rintro ⟨rfl, h⟩
        exact ⟨hm, hstage ▸ rfl, h⟩
    · simp [hstage, Stored]
    · simp [Desk.edit, Stored]
    · simp [Desk.edit]
  | @replaced m e r l stage hm hc hstage =>
    have hbefore : s.edit e = .replace r := congrArg Call.stage hc
    refine .inl ⟨fun e' h => ?_, rfl, fun e' => ?_⟩
    · obtain rfl : e = e' := Sum.inr.inj (hm.symm.trans h.1)
      have hw := h.2.1
      rw [hbefore] at hw
      cases hw
    · by_cases he : e' = e
      · subst he
        rw [hbefore]
        rcases hstage with rfl | rfl <;> simp [Desk.edit, Stored]
      · simp [Desk.edit, he]
  | opened => exact .inl ⟨fun e h => h.elim, rfl, fun e => Iff.rfl⟩
  | @submitted e now r hr he =>
    refine .inl ⟨fun e h => h.elim, rfl, fun e' => ?_⟩
    by_cases he' : e' = e
    · subst he'
      rw [he]
      simp [Desk.edit, Stored]
    · simp [Desk.edit, he']
  | idle h => exact .inl ⟨h, rfl, fun e => Iff.rfl⟩

/-- A step keeps both edits exactly where a form has what is written over;
where it has not, nothing is left to write. -/
theorem kept_step (hfs : fs ⊆ AddPatientScreen.fields) (hdisj : ∀ e, Separate (edits e).changes (edits !e).changes)
    (hk : Kept id edits fs s) (hs : Steps id edits s a s') :
    (Kept id edits fs s' ↔ FormHas edits fs s a) ∧ (¬ Kept id edits fs s' → ∀ e, Stored (s'.edit e)) := by
  rcases hs.frame_or_writes with hframe | ⟨e, r, hw⟩
  · have hk' : Kept id edits fs s' := fun e he => hframe.docs ▸ hk e ((hframe.stored e).1 he)
    exact ⟨iff_of_true hk' fun e h => absurd h (hframe.second e), fun h => absurd hk' h⟩
  · refine ⟨(hw.kept_iff hfs).trans (hw.formHas_iff hfs hdisj).symm, fun h e' => ?_⟩
    rw [hw.kept_iff hfs] at h
    rcases Bool.eq_or_eq_not e' e with rfl | rfl
    · exact hw.after
    · exact hw.other ▸ (Classical.not_imp.1 h).1

theorem seen_step (hclients : ∀ e, (edits e).client ≠ (edits !e).client) (h : Inv id edits s) (hseen : Seen id edits e s)
    (hs : Steps id edits s a s') (hother : ¬ Stored (s'.edit !e)) : Seen id edits e s' := by
  cases hs with
  | @read m i client hm hc =>
    refine ⟨by simpa [Desk.edit] using hseen.stored, fun j docs hj hafter => ?_, hseen.listed, hseen.form⟩
    by_cases hij : j = i
    · subst hij
      obtain rfl : query s.docs "createdAt" 25 = docs := by simpa using hj
      exact hseen.query h (by simpa using hafter)
    · exact hseen.read j docs (by simpa [hij] using hj) (by simpa [hij] using hafter)
  | @assigned m i client ps hm hc =>
    refine ⟨by simpa [Desk.edit] using hseen.stored, fun j docs hj hafter => ?_, fun hafter p hp hid => ?_, hseen.form⟩
    · by_cases hij : j = i
      · simp [hij] at hj
      · exact hseen.read j docs (by simpa [hij] using hj) hafter
    · by_cases hcl : (edits !e).client = client
      · have hread := hseen.read i (ps.map doc) (congrArg Call.stage hc) (by simpa [hcl] using hafter)
        exact Seen.reloaded hread (by simpa [hcl] using hp) hid
      · exact hseen.listed (by simpa [hcl] using hafter) p (by simpa [hcl] using hp) hid
  | @wrote m e' r hm hc hr =>
    rcases Bool.eq_or_eq_not e' e with rfl | rfl
    · refine ⟨fun _ d hd => ?_, fun j docs hj => hseen.read j docs (by simpa using hj), hseen.listed, hseen.form⟩
      obtain rfl := Option.some.inj (SortedMap.get_set_self.symm.trans hd)
      obtain ⟨p, now, -, -, ha, hr⟩ := hr
      exact has_of_edited undated_subset ha hr
    · exact absurd (by simp [Desk.edit, Stored]) hother
  | @replaced m e' r l stage hm hc hstage =>
    rcases Bool.eq_or_eq_not e' e with rfl | rfl
    · have hlists : Function.update s.lists (edits e').client l (edits !e').client = s.lists (edits !e').client :=
        Function.update_of_ne (hclients e').symm _ _
      have hstored : Stored (s.edit e') := by simp [Desk.edit, hc, Stored]
      exact ⟨fun _ => hseen.stored hstored, fun j docs hj => hseen.read j docs (by simpa using hj),
        fun hafter p hp => hseen.listed hafter p (hlists ▸ hp), hseen.form⟩
    · rcases hstage with rfl | rfl <;> exact absurd (by simp [Desk.edit, Stored]) hother
  | @opened e' i p hp hid he =>
    refine ⟨hseen.stored, hseen.read, hseen.listed, fun hafter q hq => ?_⟩
    rcases Bool.eq_or_eq_not e' (!e) with rfl | rfl
    · obtain rfl : p = q := by simpa using hq
      exact hseen.listed (by simpa using hafter) p hp hid
    · exact hseen.form (by simpa using hafter) q (by simpa using hq)
  | @submitted e' now r hr he =>
    refine ⟨fun hstored => hseen.stored ?_, fun j docs hj => hseen.read j docs (by simpa using hj), hseen.listed, hseen.form⟩
    by_cases hee : e' = e
    · subst hee
      simp [Desk.edit, Stored] at hstored
    · simpa [Desk.edit, Ne.symm hee] using hstored
  | idle => exact hseen

theorem seenFirst_step (hclients : ∀ e, (edits e).client ≠ (edits !e).client) (h : Inv id edits s)
    (hseen : SeenFirst id edits s) (hs : Steps id edits s a s') : SeenFirst id edits s' := by
  intro e hother
  refine seen_step hclients h (hseen e fun hbefore => hother ?_) hs hother
  rcases hs.frame_or_writes with hframe | ⟨e', r, hw⟩
  · exact (hframe.stored _).2 hbefore
  · rcases Bool.eq_or_eq_not (!e) e' with he | he
    · exact he ▸ hw.after
    · rw [he, hw.other, ← he]
      exact hbefore

/-! ## Whole runs -/

/-- Once both are written, the document stays. -/
theorem docs_run (h : Inv id edits s) (hs : ∀ e, Stored (s.edit e)) (hok : ∀ a ∈ acts, GoesThrough a) :
    (run (step id edits) s acts).docs = s.docs := by
  induction acts generalizing s with
  | nil => rfl
  | cons a acts ih =>
    have hsteps := steps h (hok a List.mem_cons_self)
    rcases hsteps.frame_or_writes with hframe | ⟨e, r, hw⟩
    · rw [run_cons, ih (inv_step h hsteps) (fun e => (hframe.stored e).2 (hs e)) fun a ha => hok a (List.mem_cons_of_mem _ ha)]
      exact hframe.docs
    · exact absurd (hs e) hw.before

theorem kept_run (hfs : fs ⊆ AddPatientScreen.fields) (hdisj : ∀ e, Separate (edits e).changes (edits !e).changes)
    (h : Inv id edits s) (hk : Kept id edits fs s) (hok : ∀ a ∈ acts, GoesThrough a)
    (hdone : ∀ e, Stored ((run (step id edits) s acts).edit e)) :
    Carries id edits fs (run (step id edits) s acts) ↔ Along (step id edits) (FormHas edits fs) s acts := by
  induction acts generalizing s with
  | nil => exact iff_of_true ((kept_iff_carries hdone).1 hk) trivial
  | cons a acts ih =>
    have hok' : ∀ a ∈ acts, GoesThrough a := fun a ha => hok a (List.mem_cons_of_mem _ ha)
    have hsteps := steps h (hok a List.mem_cons_self)
    obtain ⟨hiff, hboth⟩ := kept_step hfs hdisj hk hsteps
    rw [run_cons, along_cons, ← hiff]
    by_cases hk' : Kept id edits fs (step id edits s a)
    · rw [ih (inv_step h hsteps) hk' hok' hdone]
      exact (and_iff_right hk').symm
    · have hdocs := docs_run (inv_step h hsteps) (hboth hk') hok'
      refine iff_of_false (fun ⟨d, hd, hhas⟩ => hk' ?_) fun h => hk' h.1
      rw [kept_iff_carries (hboth hk')]
      exact ⟨d, hdocs ▸ hd, hhas⟩

/-- **Both edits are in the document exactly where the form of the one that
writes second was opened on an entry with the other's values**, whichever
fields of the form are asked for; and all but the date of birth are where
that entry was read after the other's write. -/
theorem carries_iff (hsaved : Saved Patient docs) (hclients : (edits true).client ≠ (edits false).client)
    (hdisj : Separate (edits true).changes (edits false).changes) (hok : ∀ a ∈ acts, GoesThrough a)
    (hdone : ∀ e, Stored ((run (step id edits) (start edits docs lists loads clock) acts).edit e)) :
    (∀ fs ⊆ AddPatientScreen.fields, (Carries id edits fs (run (step id edits) (start edits docs lists loads clock) acts) ↔
      Along (step id edits) (FormHas edits fs) (start edits docs lists loads clock) acts)) ∧
    (Along (step id edits) FormRead (start edits docs lists loads clock) acts →
      Carries id edits undated (run (step id edits) (start edits docs lists loads clock) acts)) := by
  have hdisj : ∀ e, Separate (edits e).changes (edits !e).changes
    | true => hdisj
    | false => fun f hf => (hdisj f hf).symm
  have hclients : ∀ e, (edits e).client ≠ (edits !e).client
    | true => hclients
    | false => hclients.symm
  have hiff : ∀ fs ⊆ AddPatientScreen.fields, _ ↔ _ := fun fs hfs =>
    kept_run hfs hdisj (inv_start hsaved) (fun e he => he.elim) hok hdone
  refine ⟨hiff, fun hread => (hiff undated undated_subset).2 ?_⟩
  refine Along.of_invariant (I := fun s => Inv id edits s ∧ SeenFirst id edits s) (fun s a hi ha => ?_)
    ⟨inv_start hsaved, fun e _ => ⟨fun he => he.elim, nofun, nofun, nofun⟩⟩ (hread.and (Along.of_forall hok))
  have hsteps := steps hi.1 ha.2
  exact ⟨formHas_of_read hi.2 ha.1, inv_step hi.1 hsteps, seenFirst_step hclients hi.1 hi.2 hsteps⟩

instance {changes changes' : DynMap} : Decidable (Separate changes changes') :=
  inferInstanceAs (Decidable (∀ f ∈ AddPatientScreen.fields, _ ∨ _))

instance {changes : DynMap} {d : Doc} : Decidable (Has fs changes d) :=
  inferInstanceAs (Decidable (∀ f ∈ fs, ∀ v ∈ changes.lookup f.name, _ = _))

instance : ∀ a : Act ι, Decidable (GoesThrough a)
  | .move _ => inferInstanceAs (Decidable (_ = true))
  | .openForm _ _ | .submit _ _ => .isTrue trivial

instance : ∀ a : Act ι, Decidable (Second s e a)
  | .move _ => inferInstanceAs (Decidable (_ ∧ _ ∧ _))
  | .openForm _ _ | .submit _ _ => .isFalse not_false

instance : Decidable (FormHas edits fs s a) := inferInstanceAs (Decidable (∀ e, Second s e a → ∀ p ∈ s.form e, Has fs _ _))

instance : Decidable (FormRead s a) := inferInstanceAs (Decidable (∀ _, _ → _))

instance : Decidable (Carries id edits fs s) := inferInstanceAs (Decidable (∃ d ∈ s.docs.get id, ∀ _, Has fs _ d))

/-- One client edits the address of a patient, and another the occupation. -/
def two : Bool → Edit
  | true => ⟨0, [("address", .str "B")], "U"⟩
  | false => ⟨1, [("occupation", .str "C")], "V"⟩

/-- The patient is stored, and each client is to load it. -/
def oneStored : Desk Bool :=
  start two (SortedMap.empty.set "P-1" (doc Codec.registeredPatient)) (fun _ => []) (fun e => (two e).client) (.reading 0)

/-- A client loads the patient and opens its form. -/
def opens (e : Bool) : List (Act Bool) :=
  [.move { call := .inl e, now := .reading 1 }, .move { call := .inl e, now := .reading 1 }, .openForm e 0]

/-- A form is submitted, and the edit made. -/
def makes (e : Bool) : List (Act Bool) :=
  [.submit e (.reading 2), .move { call := .inr e, now := .reading 3 }, .move { call := .inr e, now := .reading 3 }]

theorem saved_oneStored : Saved Patient oneStored.docs := by
  show Saved Patient (SortedMap.empty.set (key Codec.registeredPatient) _)
  exact saved_empty.set

/-- Both clients load, and then both edit. -/
def crossing : List (Act Bool) := opens true ++ opens false ++ makes true ++ makes false

/-- **The first edit is lost.** -/
theorem loses_first : Saved Patient oneStored.docs ∧ (two true).client ≠ (two false).client ∧
    Separate (two true).changes (two false).changes ∧ (∀ a ∈ crossing, GoesThrough a) ∧
    (∀ e, Stored ((run (step "P-1" two) oneStored crossing).edit e)) ∧
    ¬ Carries "P-1" two AddPatientScreen.fields (run (step "P-1" two) oneStored crossing) :=
  ⟨saved_oneStored, by decide, by decide +kernel, by decide +kernel, by decide +kernel, by decide +kernel⟩

/-- The second client loads once the first has edited. -/
def following : List (Act Bool) := opens true ++ makes true ++ opens false ++ makes false

theorem carries_iff_following : Carries "P-1" two AddPatientScreen.fields (run (step "P-1" two) oneStored following) ∧
    Carries "P-1" two undated (run (step "P-1" two) oneStored following) := by
  have hclients : (two true).client ≠ (two false).client := by decide
  have hdisj : Separate (two true).changes (two false).changes := by decide +kernel
  have hdone : ∀ e, Stored ((run (step "P-1" two) oneStored following).edit e) := by decide +kernel
  obtain ⟨hiff, hread⟩ := carries_iff saved_oneStored hclients hdisj (by decide +kernel) hdone
  exact ⟨(hiff AddPatientScreen.fields (List.Subset.refl _)).2 (by decide +kernel), hread (by decide +kernel)⟩

end LostUpdate
