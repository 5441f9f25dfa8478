/-
A session: one client that starts an operation when the last one has
returned. `Effect` says once what an operation can do to the collection and
the list; the developments about runs of a session argue from its cases.
-/
import Sdapk.AddDoctorScreen
import Sdapk.AddPatientScreen
import Sdapk.Register
import Sdapk.Runs

open Dart Firestore Entity Forms Screen

/-- What a user can set off: on the whole list, on the entry at an index, or
on an id. The changes are what the user put into the form. -/
inductive Op
  | load
  | add (changes : DynMap)
  | edit (i : Nat) (changes : DynMap)
  | remove (id : String)
  | removeAt (i : Nat)
  deriving DecidableEq

def Op.isRemove : Op → Bool
  | remove _ | removeAt _ => true
  | _ => false

/-- An operation, with the signed-in user's name, the clock's reading and what its remote calls come to. -/
structure Event where
  op : Op
  user : Option String
  now : DateTime
  outcome : Outcome := {}

structure Session (R : Type) extends World R where
  clock : DateTime

namespace Session

variable {R : Type} [Screen R]

/-- Nothing stored, nothing listed. -/
def start (R : Type) (clock : DateTime) : Session R := { World.empty with clock }

def perform (e : Event) (w : World R) : World R × Except Error Unit :=
  match e.op with
  | .load => Notifier.load e.outcome w
  | .add changes => saveAndValidate none e.user (newForm R changes) e.now e.outcome w
  | .edit i changes =>
    match w.state[i]? with
    | some r => saveAndValidate (some r) e.user (editForm r changes) e.now e.outcome w
    | none => (w, .ok ())
  | .remove id => Notifier.remove id e.outcome w
  | .removeAt i =>
    match w.state[i]? with
    | some r => Notifier.remove (key r) e.outcome w
    | none => (w, .ok ())

def step (s : Session R) (e : Event) : Session R := { (perform e s.toWorld).1 with clock := e.now }

/-- The remote calls succeed, and the clock has moved on. -/
def Succeeds (s : Session R) (e : Event) : Prop := e.outcome = {} ∧ s.clock.isBefore e.now

instance {s : Session R} {e : Event} : Decidable (Succeeds s e) := inferInstanceAs (Decidable (_ ∧ _))

/-! ## What an operation does -/

/-- An entry and the record an edit of it saves: none where the form is not
accepted, or the edit is not decoded. -/
def edit? (e : Event) (w : World R) : Option (R × R) :=
  match e.op with
  | .edit i changes => do
    let r ← w.state[i]?
    if Accepted R (editForm r changes) then
      let r' ← (edited r e.user e.now (editForm r changes)).toOption
      return (r, r')
    else none
  | _ => none

/-- The record an add of an accepted form saves. -/
def add? (e : Event) (w : World R) : Option R :=
  match e.op with
  | .add changes => do
    let user ← e.user
    let uid ← (Notifier.generateId R e.outcome w.docs).toOption
    if Accepted R (newForm R changes) then (newRecord (newForm R changes) uid user e.now).toOption else none
  | _ => none

/-- **What an operation can do**, and what it comes to. -/
inductive Effect (e : Event) (w : World R) : World R × Except Error Unit → Prop
  | idle {x} (hadd : add? e w = none) (hedit : edit? e w = none) : Effect e w (w, x)
  | loaded {state} (hop : e.op = .load) (hl : Notifier.loaded R w.docs = .ok state) : Effect e w (⟨w.docs, state⟩, .ok ())
  | added {r} (h : add? e w = some r) : Effect e w (⟨Notifier.upsert r e.outcome w.docs, r :: w.state⟩, .ok ())
  | edited {r r' state} (h : edit? e w = some (r, r')) (hs : Notifier.replaced r' w.state = .ok state) :
      Effect e w (⟨Notifier.upsert r' e.outcome w.docs, state⟩, .ok ())
  | removed {id} (hop : e.op.isRemove) :
      Effect e w (⟨Notifier.delete id e.outcome w.docs, Keyed.without key id w.state⟩, .ok ())

theorem edit?_eq_some {e : Event} {w : World R} {r r' : R} (h : edit? e w = some (r, r')) :
    ∃ i changes, e.op = .edit i changes ∧ w.state[i]? = some r ∧ Accepted R (editForm r changes) ∧
      Screen.edited r e.user e.now (editForm r changes) = .ok r' := by
  unfold edit? at h
  split at h
  · next i changes hop =>
    obtain ⟨r₀, hr, h⟩ := Option.bind_eq_some_iff.1 h
    split at h
    · next ha =>
      obtain ⟨r₁, hr', h⟩ := Option.bind_eq_some_iff.1 h
      obtain ⟨rfl, rfl⟩ := Prod.mk.inj (Option.some.inj h)
      exact ⟨i, changes, hop, hr, ha, toOption_eq_some.1 hr'⟩
    · cases h
  · cases h

theorem add?_eq_some {e : Event} {w : World R} {r : R} (h : add? e w = some r) :
    ∃ changes user uid, e.op = .add changes ∧ e.user = some user ∧ Notifier.generateId R e.outcome w.docs = .ok uid ∧
      Accepted R (newForm R changes) ∧ newRecord (newForm R changes) uid user e.now = .ok r := by
  unfold add? at h
  split at h
  · next changes hop =>
    obtain ⟨user, hu, h⟩ := Option.bind_eq_some_iff.1 h
    obtain ⟨uid, hg, h⟩ := Option.bind_eq_some_iff.1 h
    split at h
    · next ha => exact ⟨changes, user, uid, hop, hu, toOption_eq_some.1 hg, ha, toOption_eq_some.1 h⟩
    · cases h
  · cases h

theorem perform_add {e : Event} {w : World R} {changes : DynMap} (hop : e.op = .add changes) :
    Effect e w (saveAndValidate none e.user (newForm R changes) e.now e.outcome w) := by
  have hedit : edit? e w = none := by simp [edit?, hop]
  rw [saveAndValidate_none]
  split
  · next ha =>
    have ha : Accepted R (newForm R changes) := ha
    cases hu : e.user with
    | none => exact .idle (by simp [add?, hop, hu]) hedit
    | some user =>
      simp only [nonNull, Notifier.add, if_neg (newForm_ne_nil (R := R))]
      cases hg : Notifier.generateId R e.outcome w.docs with
      | error => exact .idle (by simp [add?, hop, hu, hg, Except.toOption]) hedit
      | ok uid =>
        cases hr : (newRecord (newForm R changes) uid user e.now : Except Error R) with
        | error =>
          simp only [hr]
          exact .idle (by simp [add?, hop, hu, hg, hr, Except.toOption]) hedit
        | ok r =>
          simp only [hr]
          have h : add? e w = some r := by simp [add?, hop, hu, hg, ha, hr, Except.toOption]
          exact .added h
  · next ha =>
    have ha : ¬ Accepted R (newForm R changes) := ha
    exact .idle (by simp [add?, hop, ha]) hedit

theorem perform_edit {e : Event} {w : World R} {i : Nat} {changes : DynMap} {r : R} (hop : e.op = .edit i changes)
    (hr : w.state[i]? = some r) :
    Effect e w (saveAndValidate (some r) e.user (editForm r changes) e.now e.outcome w) := by
  have hadd : add? e w = none := by simp [add?, hop]
  rw [saveAndValidate_some]
  split
  · next ha =>
    have ha : Accepted R (editForm r changes) := ha
    cases hr' : Screen.edited r e.user e.now (editForm r changes) with
    | error => exact .idle hadd (by simp [edit?, hop, hr, hr', Except.toOption])
    | ok r' =>
      simp only [submitEdit, Notifier.save]
      -- The edited record has the id of an entry.
      have hmem : key r' ∈ w.state.map key := by
        rw [(edited_keeps hr').1]
        exact List.mem_map_of_mem (List.mem_of_getElem? hr)
      cases hs : Notifier.replaced r' w.state with
      | error => exact absurd hmem (Notifier.replaced_eq_error.1 hs).2
      | ok state =>
        have h : edit? e w = some (r, r') := by simp [edit?, hop, hr, ha, hr', Except.toOption]
        exact .edited h hs
  · next ha =>
    have ha : ¬ Accepted R (editForm r changes) := ha
    exact .idle hadd (by simp [edit?, hop, hr, ha])

/-- An edit in a session finds the entry it was made on. -/
theorem perform_effect (e : Event) (w : World R) : Effect e w (perform e w) := by
  unfold perform
  split
  · next hop =>
    have hnone : add? e w = none ∧ edit? e w = none := by simp [add?, edit?, hop]
    unfold Notifier.load
    split
    · split
      · next state hl => exact .loaded hop hl
      · exact .idle hnone.1 hnone.2
    · exact .idle hnone.1 hnone.2
  · next changes hop => exact perform_add hop
  · next i changes hop =>
    split
    · next r hr => exact perform_edit hop hr
    · next hr => exact .idle (by simp [add?, hop]) (by simp [edit?, hop, hr])
  · next id hop => exact .removed (by rw [hop]; rfl)
  · next i hop =>
    split
    · exact .removed (by rw [hop]; rfl)
    · exact .idle (by simp [add?, hop]) (by simp [edit?, hop])

/-! ## What a session keeps -/

/-- The collection's documents are saved records, each under its own id. The
list's ids are distinct and stored, and an entry that has not been through a
load is stored as it is. -/
structure Tidy (w : World R) : Prop where
  saved : Register.Saved R w.docs
  kept : Register.WellKept R w.docs
  nodup : (w.state.map key).Nodup
  stored : ∀ r ∈ w.state, key r ∈ w.docs.keys
  dated : ∀ r ∈ w.state, (audit r).createdAt ≠ none → (key r, doc r) ∈ w.docs

theorem tidy_empty : Tidy (World.empty : World R) where
  saved := Register.saved_empty
  kept := Register.wellKept_empty
  nodup := List.nodup_nil
  stored _ h := by cases h
  dated _ h := by cases h

variable {w : World R} {r r' : R} {n : Int}

/-- A load leaves records without a date: what is stored of them is not asked. -/
theorem Tidy.loaded {state : List R} (h : Tidy w) (hl : Notifier.loaded R w.docs = .ok state) : Tidy ⟨w.docs, state⟩ := by
  obtain ⟨hnodup, hstate⟩ := h.saved.of_loaded hl
  refine ⟨h.saved, h.kept, hnodup, fun r hr => ?_, fun r hr hd => ?_⟩
  · obtain ⟨r₀, he, rfl⟩ := hstate r hr
    rw [key_reloaded]
    exact SortedMap.mem_keys_of_mem he
  · obtain ⟨r₀, -, rfl⟩ := hstate r hr
    rw [audit_reloaded] at hd
    exact absurd rfl hd

theorem Tidy.added (h : Tidy w) (hn : 0 < n) (hr : key r = idOf R n) (hnew : key r ∉ w.docs.keys) :
    Tidy ⟨w.docs.set (key r) (doc r), r :: w.state⟩ where
  saved := h.saved.set
  kept := h.kept.set hn hr
  nodup := by
    refine List.nodup_cons.2 ⟨fun hmem => ?_, h.nodup⟩
    obtain ⟨r₀, hr₀, hk⟩ := List.mem_map.1 hmem
    exact hnew (hk ▸ h.stored r₀ hr₀)
  stored r₀ hr₀ := by
    rcases List.mem_cons.1 hr₀ with rfl | hr₀
    · exact SortedMap.mem_keys_set.2 (.inl rfl)
    · exact SortedMap.mem_keys_set.2 (.inr (h.stored r₀ hr₀))
  dated r₀ hr₀ hd := by
    rcases List.mem_cons.1 hr₀ with rfl | hr₀
    · exact SortedMap.mem_set.2 (.inl rfl)
    · exact SortedMap.mem_set.2 (.inr ⟨h.dated r₀ hr₀ hd, fun hk => hnew (hk ▸ h.stored r₀ hr₀)⟩)

theorem Tidy.edited (h : Tidy w) (hmem : r ∈ w.state) (hk : key r' = key r) :
    Tidy ⟨w.docs.set (key r') (doc r'), Keyed.put key r' w.state⟩ where
  saved := h.saved.set
  kept := by
    obtain ⟨d, he⟩ := SortedMap.mem_keys.1 (h.stored r hmem)
    obtain ⟨n, hn, hid⟩ := h.kept.keyed _ he
    exact h.kept.set hn (hk.trans hid)
  nodup := by
    rw [Keyed.map_key_put]
    exact h.nodup
  stored r₀ hr₀ := by
    rcases Keyed.mem_put.1 hr₀ with ⟨rfl, -⟩ | ⟨hr₀, -⟩
    · exact SortedMap.mem_keys_set.2 (.inl rfl)
    · exact SortedMap.mem_keys_set.2 (.inr (h.stored r₀ hr₀))
  dated r₀ hr₀ hd := by
    rcases Keyed.mem_put.1 hr₀ with ⟨rfl, -⟩ | ⟨hr₀, hne⟩
    · exact SortedMap.mem_set.2 (.inl rfl)
    · exact SortedMap.mem_set.2 (.inr ⟨h.dated r₀ hr₀ hd, hne⟩)

theorem Tidy.removed {id : String} (h : Tidy w) : Tidy ⟨w.docs.erase id, Keyed.without key id w.state⟩ where
  saved := h.saved.erase
  kept := h.kept.erase
  nodup := Keyed.nodup_without h.nodup
  stored r₀ hr₀ := by
    obtain ⟨hr₀, hne⟩ := Keyed.mem_without.1 hr₀
    exact SortedMap.mem_keys_erase.2 ⟨h.stored r₀ hr₀, hne⟩
  dated r₀ hr₀ hd := by
    obtain ⟨hr₀, hne⟩ := Keyed.mem_without.1 hr₀
    exact SortedMap.mem_erase.2 ⟨h.dated r₀ hr₀ hd, hne⟩

end Session
