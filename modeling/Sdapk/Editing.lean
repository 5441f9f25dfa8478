/-
Editing a patient. The document is written whole, from an entry that has
been through a form and perhaps through a load: what the user did not change
is kept exactly by the edits of entries that have their `createdAt`
(`edits_only_changed`), and an entry that has been through a load has
lost it with its other dates.
-/
import Sdapk.Codec
import Sdapk.Freshness

namespace Editing

open Dart Firestore Entity Forms Screen Session Register Runs

/-! ## Fields -/

/-- What is stored of a field's value: an age as the number it is the text of. -/
def savedAs (name : String) (v : Dyn) : Dyn :=
  if name = "age" then match v.parseInt with
    | .ok n => .int n
    | .error _ => .null
  else stored v

/-- Every field of a patient read from a form is stored as the form has it. -/
theorem get_doc_field {m : DynMap} {q : Patient} {userName : String} {now : DateTime} (hr : Patient.Reads m q)
    (hd : m.get "date_of_birth" = .ofDateTime q.dob) :
    ∀ f ∈ AddPatientScreen.fields,
      (doc { q with updatedBy := some userName, updatedAt := some now }).get f.name = savedAs f.name (m.get f.name) := by
  simp only [AddPatientScreen.fields, List.forall_mem_cons, get_doc]
  refine ⟨?_, ?_, ?_, ?_, ?_, ?_, ?_, ?_, ?_, ?_, ?_, by simp⟩
  · rw [hr.firstName]; rfl
  · rw [hr.lastName]; rfl
  · rw [hr.mobileNumber]; rfl
  · rw [hr.alternateMobileNumber]; rfl
  · rw [hr.email]; rfl
  · simp only [savedAs, if_true, hr.age]; rfl
  · rw [hd]; rfl
  · rw [hr.gender]; rfl
  · rw [hr.address]; rfl
  · rw [hr.occupation]; rfl
  · rw [hr.reference]; rfl

/-- A field the user leaves alone would be stored as it was. -/
theorem savedAs_initialValue (p : Patient) :
    ∀ f ∈ AddPatientScreen.fields, savedAs f.name (f.initialValue p) = (doc p).get f.name := by
  simp only [AddPatientScreen.fields, List.forall_mem_cons, get_doc]
  refine ⟨rfl, rfl, rfl, rfl, rfl, ?_, rfl, rfl, rfl, rfl, rfl, by simp⟩
  simp [savedAs]
  rfl

/-! ## The frame of an edit -/

/-- What an edit of `p` must leave of the stored document and put into it. -/
structure Frame (p : Patient) (changes : DynMap) (userName : String) (now : DateTime) (before after : Doc) : Prop where
  id : after.get "id" = before.get "id"
  createdAt : after.get "createdAt" = before.get "createdAt"
  createdBy : after.get "createdBy" = before.get "createdBy"
  unchanged : ∀ f ∈ AddPatientScreen.fields, changes.lookup f.name = none → after.get f.name = before.get f.name
  changed : ∀ f ∈ AddPatientScreen.fields, ∀ v, changes.lookup f.name = some v → after.get f.name = savedAs f.name v
  updatedBy : after.get "updatedBy" = .str userName
  updatedAt : after.get "updatedAt" = stored (.dateTime now)

/-- The edits of entries, with an accepted form and a signed-in user, that an event makes. -/
def Edits (s : Session Patient) (e : Event) (p : Patient) (changes : DynMap) (userName : String) : Prop :=
  ∃ i, e.op = .edit i changes ∧ s.state[i]? = some p ∧ Accepted Patient (editForm p changes) ∧ e.user = some userName

/-- An edit changes what the user edited, and no other document. -/
def EditsOnlyChanged (s : Session Patient) (e : Event) : Prop :=
  ∀ p changes userName, Edits s e p changes userName →
    (∃ before after, s.docs.get p.id = some before ∧ (step s e).docs.get p.id = some after ∧
      Frame p changes userName e.now before after) ∧
    ∀ k, k ≠ p.id → (step s e).docs.get k = s.docs.get k

/-- An edit is made on an entry that has its `createdAt`. -/
def EditsDated (s : Session Patient) (e : Event) : Prop :=
  ∀ p changes userName, Edits s e p changes userName → p.createdAt ≠ none

/-- An add saves under a new id. -/
def AddsNew (s : Session Patient) (e : Event) : Prop := ∀ p ∈ add? e s.toWorld, p.id ∉ s.docs.keys

/-- What an accepted form saves of each of its fields: what the user put in, or what the entry had. -/
theorem get_doc_edited {p q : Patient} {changes : DynMap} {userName : String} {now : DateTime}
    (hr : Patient.Reads (AddPatientScreen.editData p (editForm p changes)) q)
    (hd : (editForm p changes).get "date_of_birth" = .ofDateTime q.dob) :
    ∀ f ∈ AddPatientScreen.fields, (doc { q with updatedBy := some userName, updatedAt := some now }).get f.name =
      ((changes.lookup f.name).map (savedAs f.name)).getD ((doc p).get f.name) := by
  intro f hf
  have hne : ∀ k ∉ AddPatientScreen.fields.map (·.name), f.name ≠ k := fun k hk h => hk (h ▸ List.mem_map_of_mem hf)
  have hform : (AddPatientScreen.editData p (editForm p changes)).get f.name =
      (changes.lookup f.name).getD (f.initialValue p) := by
    rw [AddPatientScreen.get_editData (hne _ (by decide)) (hne _ (by decide)) (hne _ (by decide))]
    exact get_formValue (by decide) hf
  have hdob : (AddPatientScreen.editData p (editForm p changes)).get "date_of_birth" = .ofDateTime q.dob :=
    (AddPatientScreen.get_editData (by decide) (by decide) (by decide)).trans hd
  rw [get_doc_field hr hdob f hf, hform]
  cases changes.lookup f.name with
  | some v => rfl
  | none => exact savedAs_initialValue p f hf

/-- What an accepted form saves over the document of the entry it was filled from. -/
theorem frame_of_dated {p q : Patient} {changes : DynMap} {userName : String} {now : DateTime}
    (hr : Patient.Reads (AddPatientScreen.editData p (editForm p changes)) q)
    (hd : (editForm p changes).get "date_of_birth" = .ofDateTime q.dob) (hcb : p.createdBy ≠ none) :
    Frame p changes userName now (doc p) (doc { q with updatedBy := some userName, updatedAt := some now }) := by
  obtain ⟨hid, hca, hcb'⟩ := AddPatientScreen.reads_editData hr
  rw [Codec.getD_eq_self hcb] at hcb'
  refine ⟨?_, ?_, ?_, fun f hf hl => ?_, fun f hf v hl => ?_, ?_, ?_⟩
  · exact congrArg (fun i => stored (.str i)) hid
  · exact congrArg (fun o => stored (.ofDateTime o)) hca
  · exact congrArg (fun o => stored (.ofString o)) hcb'
  · rw [get_doc_edited hr hd f hf, hl]
    rfl
  · rw [get_doc_edited hr hd f hf, hl]
    rfl
  · rfl
  · rfl

/-! ## The invariant -/

/-- Every document has its `createdAt`, and every entry its `createdBy`. -/
structure Inv (w : World Patient) : Prop where
  tidy : Tidy w
  dated : ∀ e ∈ w.docs, e.2.get "createdAt" ≠ .null
  createdBy : ∀ p ∈ w.state, p.createdBy ≠ none

theorem inv_start {clock : DateTime} : Inv (start Patient clock).toWorld where
  tidy := tidy_empty
  dated e he := by cases he
  createdBy p hp := by cases hp

variable {s : Session Patient} {e : Event} {p q : Patient} {changes : DynMap} {userName : String}

theorem Edits.edit?_eq (h : Edits s e p changes userName) :
    ∃ q, Patient.Reads (AddPatientScreen.editData p (editForm p changes)) q ∧
      (editForm p changes).get "date_of_birth" = .ofDateTime q.dob ∧
      edit? e s.toWorld = some (p, { q with updatedBy := some userName, updatedAt := some e.now }) := by
  obtain ⟨i, hop, hi, ha, hu⟩ := h
  obtain ⟨q, hr, hd, hq⟩ := @AddPatientScreen.edited_accepted p changes userName e.now ha
  refine ⟨q, hr, hd, ?_⟩
  have hq' : edited p (some userName) e.now (editForm p changes) = _ := hq
  simp [edit?, hop, hi, ha, hu, hq', Except.toOption]

/-- What an edit that goes through leaves: the entry's document replaced. -/
theorem step_edit {r r' : Patient} (h : edit? e s.toWorld = some (r, r')) (ho : e.outcome = {}) :
    (step s e).docs = s.docs.set (key r') (doc r') := by
  show (perform e s.toWorld).1.docs = _
  have hE := perform_effect e s.toWorld
  generalize perform e s.toWorld = x at hE
  cases hE with
  | idle _ hedit => rw [h] at hedit; cases hedit
  | loaded hop => simp [edit?, hop] at h
  | added hadd => obtain ⟨_, _, _, hop, -⟩ := add?_eq_some hadd; simp [edit?, hop] at h
  | edited hedit =>
    rw [h] at hedit
    obtain ⟨-, rfl⟩ := Prod.mk.inj (Option.some.inj hedit)
    rw [Notifier.upsert, ho]
    rfl
  | removed hop =>
    obtain ⟨_, _, hop', -⟩ := edit?_eq_some h
    rw [hop'] at hop
    cases hop

theorem edits_of_edit? (h : edit? e s.toWorld = some (p, q)) : ∃ changes userName, Edits s e p changes userName := by
  obtain ⟨i, changes, hop, hi, ha, hr⟩ := edit?_eq_some h
  obtain ⟨userName, _, _, hu, -⟩ := AddPatientScreen.edited_ok hr
  exact ⟨changes, userName, i, hop, hi, ha, hu⟩

theorem EditsDated.keepsOrder (h : EditsDated s e) : Freshness.KeepsOrder s e := by
  rintro ⟨p, q⟩ hpq
  obtain ⟨changes, userName, hedit⟩ := edits_of_edit? hpq
  exact .inl (h p changes userName hedit)

theorem dated_set {r : Patient} {docs : Firestore.Collection} (h : ∀ e ∈ docs, e.2.get "createdAt" ≠ .null)
    (hr : r.createdAt ≠ none) : ∀ e ∈ docs.set (key r) (doc r), e.2.get "createdAt" ≠ .null := by
  intro e he
  rcases SortedMap.mem_set.1 he with rfl | ⟨he, -⟩
  · have hget : (doc r).get "createdAt" = stored (.ofDateTime r.createdAt) := get_doc_createdAt rfl
    obtain ⟨t, ht⟩ := Option.ne_none_iff_exists'.1 hr
    rw [hget, ht]
    exact nofun
  · exact h e he

theorem Inv.step (h : Inv s.toWorld) (ho : e.outcome = {}) (hd : EditsDated s e) (hnew : AddsNew s e) :
    Inv (step s e).toWorld := by
  have hE := perform_effect e s.toWorld
  unfold Session.step
  generalize perform e s.toWorld = x at hE
  cases hE with
  | idle => exact h
  | loaded hop hl =>
    refine ⟨h.tidy.loaded hl, h.dated, fun p hp => ?_⟩
    obtain ⟨-, hstate⟩ := h.tidy.saved.of_loaded hl
    obtain ⟨p₀, -, rfl⟩ := hstate p hp
    exact Option.some_ne_none _
  | @added r hadd =>
    obtain ⟨_, _, uid, -, -, hg, -, hr⟩ := add?_eq_some hadd
    obtain ⟨hk, hca, hcb⟩ := newRecord_stamped hr
    obtain ⟨n, hn, hg'⟩ := generateId_wellFormed h.tidy.kept (o := e.outcome) (by rw [ho])
    rw [hg, Except.ok.injEq] at hg'
    rw [Notifier.upsert, ho]
    refine ⟨h.tidy.added hn (hk.trans hg') (hnew r hadd), ?_, fun p hp => ?_⟩
    · exact dated_set h.dated (hca.trans_ne (Option.some_ne_none _))
    · rcases List.mem_cons.1 hp with rfl | hp
      · exact hcb.trans_ne (Option.some_ne_none _)
      · exact h.createdBy p hp
  | @edited r r' state hedit hrep =>
    obtain ⟨changes, userName, he⟩ := edits_of_edit? hedit
    obtain ⟨_, _, -, hi, -, hr⟩ := edit?_eq_some hedit
    obtain ⟨hk, hca, hcb⟩ := edited_keeps hr
    have hmem := List.mem_of_getElem? hi
    rw [Notifier.replaced_eq_put h.tidy.nodup (hk ▸ List.mem_map_of_mem hmem)] at hrep
    obtain rfl := Except.ok.inj hrep
    rw [Notifier.upsert, ho]
    refine ⟨h.tidy.edited hmem hk, ?_, fun p hp => ?_⟩
    · exact dated_set h.dated (hca.trans_ne (hd r changes userName he))
    · rcases Keyed.mem_put.1 hp with ⟨rfl, -⟩ | ⟨hp, -⟩
      · exact hcb.trans_ne (Option.some_ne_none _)
      · exact h.createdBy p hp
  | removed =>
    rw [Notifier.delete, ho]
    refine ⟨h.tidy.removed, fun e' he' => ?_, fun p hp => h.createdBy p (Keyed.mem_without.1 hp).1⟩
    exact h.dated e' (SortedMap.mem_erase.1 he').1

/-- An edit changes only what the user edited exactly where its entry has its `createdAt`. -/
theorem edits_step_iff (h : Inv s.toWorld) (ho : e.outcome = {}) : EditsOnlyChanged s e ↔ EditsDated s e := by
  constructor
  · intro hP p changes userName hedit hnone
    obtain ⟨q, hr, -, hq⟩ := hedit.edit?_eq
    obtain ⟨⟨before, after, hb, ha, hframe⟩, -⟩ := hP p changes userName hedit
    obtain ⟨hid, hca, -⟩ := AddPatientScreen.reads_editData hr
    -- The saved patient has no `createdAt`, and the document had one.
    rw [step_edit hq ho, ← hid] at ha
    obtain rfl := Option.some.inj (SortedMap.get_set_self.symm.trans ha)
    have hget : (doc q).get "createdAt" = stored (.ofDateTime none) := get_doc_createdAt (hca.trans hnone)
    exact h.dated _ (SortedMap.get_eq_some.1 hb) (hframe.createdAt.symm.trans hget)
  · intro hd p changes userName hedit
    obtain ⟨q, hr, hdob, hq⟩ := hedit.edit?_eq
    obtain ⟨i, -, hi, -, -⟩ := id hedit
    obtain ⟨hid, -, -⟩ := AddPatientScreen.reads_editData hr
    have hmem := List.mem_of_getElem? hi
    have hframe : Frame p changes userName e.now _ _ := frame_of_dated hr hdob (h.createdBy p hmem)
    rw [step_edit hq ho]
    refine ⟨⟨_, _, ?_, ?_, hframe⟩, fun k hk => ?_⟩
    · exact SortedMap.get_eq_some.2 (h.tidy.dated p hmem (hd p changes userName hedit))
    · rw [← hid]
      exact SortedMap.get_set_self
    · exact SortedMap.get_set_other (hid ▸ hk)

/-- Where the clock moves on, an add saves under a new id as long as edits are made on entries with their dates. -/
theorem addsNew (h : Freshness.Inv s.toWorld s.clock) (hs : Succeeds s e) : AddsNew s e := by
  intro p hp
  obtain ⟨n, -, hk, -, hlt⟩ := Freshness.add?_fresh h hs.1 hp
  have hk : p.id = idOf Patient n := hk
  exact hk ▸ not_mem_of_fresh hlt

theorem edits_run_iff {es : List Event} (hi : Inv s.toWorld) (hf : Freshness.Inv s.toWorld s.clock)
    (h : Along step Succeeds s es) : Along step EditsOnlyChanged s es ↔ Along step EditsDated s es :=
  along_iff (I := fun s => Inv s.toWorld ∧ Freshness.Inv s.toWorld s.clock) (fun _ _ hi hs => edits_step_iff hi.1 hs.1)
    (fun _ _ hi hs hd => ⟨hi.1.step hs.1 hd (addsNew hi.2 hs), Freshness.inv_step hi.2 hs hd.keepsOrder⟩) ⟨hi, hf⟩ h

/-- **Editing changes only what the user edited as long as no edit is made on
an entry that has lost its `createdAt`**, in every run of a session whose
remote calls succeed and whose adds save under new ids; and where the clock
moves on with every operation, exactly as long as that. -/
theorem edits_only_changed (clock : DateTime) (es : List Event) :
    (Along step (fun s e => e.outcome = {} ∧ EditsDated s e ∧ AddsNew s e) (start Patient clock) es →
      Along step EditsOnlyChanged (start Patient clock) es) ∧
    (Along step Succeeds (start Patient clock) es →
      (Along step EditsOnlyChanged (start Patient clock) es ↔ Along step EditsDated (start Patient clock) es)) := by
  constructor
  · exact Along.of_invariant (I := fun s => Inv s.toWorld)
      (fun _ _ hi hok => ⟨(edits_step_iff hi hok.1).2 hok.2.1, hi.step hok.1 hok.2.1 hok.2.2⟩) inv_start
  · exact edits_run_iff inv_start Freshness.inv_start

instance : Decidable (EditsDated s e) :=
  decidable_of_iff (∀ pr ∈ edit? e s.toWorld, pr.1.createdAt ≠ none)
    ⟨fun h p _ _ he => by
      obtain ⟨_, -, -, hq⟩ := he.edit?_eq
      exact h _ hq,
    fun h pr hpr => by
      obtain ⟨_, _, he⟩ := edits_of_edit? hpr
      exact h _ _ _ he⟩

instance : Decidable (AddsNew s e) := inferInstanceAs (Decidable (∀ p ∈ add? e s.toWorld, _))

/-- An edit of the address, on an entry made in the session: with a clock that stands still, and with one that moves. -/
theorem edits_only_changed_added :
    Along step EditsOnlyChanged (start Patient (.reading 0))
        [ { op := .add AddPatientScreen.filledIn, user := "U", now := .reading 0 },
          { op := .edit 0 [("address", .str "B")], user := "V", now := .reading 0 } ] ∧
      Along step EditsOnlyChanged (start Patient (.reading 0))
        [ { op := .add AddPatientScreen.filledIn, user := "U", now := .reading 1 },
          { op := .edit 0 [("address", .str "B")], user := "V", now := .reading 2 } ] :=
  ⟨(edits_only_changed _ _).1 (by decide +kernel), ((edits_only_changed _ _).2 (by decide +kernel)).2 (by decide +kernel)⟩

/-- A patient is registered, the list loaded, and the address of its entry edited. -/
def editingLoaded : List Event :=
  [ { op := .add AddPatientScreen.filledIn, user := "U", now := .reading 1 },
    { op := .load, user := "U", now := .reading 2 },
    { op := .edit 0 [("address", .str "B")], user := "V", now := .reading 3 } ]

/-- **An edit after a load changes more**: the document is left without its `createdAt`. -/
theorem edits_more_loaded :
    Along step Succeeds (start Patient (.reading 0)) editingLoaded ∧
      ¬ Along step EditsOnlyChanged (start Patient (.reading 0)) editingLoaded := by
  have hs : Along step Succeeds (start Patient (.reading 0)) editingLoaded := by decide +kernel
  exact ⟨hs, (edits_run_iff inv_start Freshness.inv_start hs).not.2 (by decide +kernel)⟩

end Editing
