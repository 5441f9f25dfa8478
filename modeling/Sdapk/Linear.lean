/-
The collection as one operation after another leaves it. A call's write is
the moment it takes effect: whatever the interleaving, the collection is what
the notifier's operations leave, each run alone and at once, in the order of
their writes (`linearized`). An add must find, when it writes, that the id it
was given is still the next one: two adds or a removal in between can see to
it that it is not.
-/
import Sdapk.Everywhere
import Sdapk.Reading

namespace Linear

open Dart Firestore Entity Screen Runs System Everywhere
open Reading (Reads)

/-- An operation of a notifier on the collection: of an add, with the form, the user and the reading it is stamped with. -/
inductive Op (R : Type)
  | add (form : DynMap) (user : String) (now : DateTime)
  | save (r : R)
  | remove (id : String)

variable {R : Type}

/-- The app, and beside each call what it adds. -/
structure Tracing (R : Type) extends App R where
  origin : Nat → Option (Op R)

/-- What an act adds, where it stamps a form. -/
def stamps (s : App R) : Act → Option (Nat × Op R)
  | .move m =>
    match (s.calls m.call).stage with
    | .stamp form user _ => some (m.call, .add form user m.now)
    | _ => none
  | _ => none

theorem stamps_eq_some {s : App R} {a : Act} {i : Nat} {op : Op R} (h : stamps s a = some (i, op)) :
    ∃ form user uid, (s.calls i).stage = .stamp form user uid := by
  unfold stamps at h
  split at h
  · split at h
    · next hstage =>
      obtain ⟨rfl, -⟩ := Prod.mk.inj (Option.some.inj h)
      exact ⟨_, _, _, hstage⟩
    · cases h
  · cases h

variable [Screen R]

/-- What an operation that is run alone, and succeeds, leaves of the collection. -/
def apply (docs : Collection) : Op R → Collection
  | .add form user now => (Notifier.add form (fun uid => (newRecord form uid user now : Except Error R)) {} ⟨docs, []⟩).1.docs
  | .save r => (Notifier.save r {} ⟨docs, []⟩).1.docs
  | .remove id => (Notifier.remove (R := R) id {} ⟨docs, []⟩).1.docs

def step (s : Tracing R) (a : Act) : Tracing R :=
  { toApp := s.toApp.step a
    origin := match stamps s.toApp a with
      | some (call, op) => Function.update s.origin call (some op)
      | none => s.origin }

/-- The operation that an act carries out: its write, or its delete, goes through. -/
def emit (s : Tracing R) : Act → Option (Op R)
  | .move m =>
    if m.ok then
      match (s.calls m.call).stage with
      | .write _ => s.origin m.call
      | .update r => some (.save r)
      | .delete id => some (.remove id)
      | _ => none
    else none
  | _ => none

/-- An add writes under the id that is the next one when it writes. -/
def Current (s : Tracing R) : Act → Prop
  | .move m => ∀ r, (s.calls m.call).stage = .write r → m.ok → Notifier.generateId R {} s.docs = .ok (key r)
  | _ => True

/-- Any collection and any lists, and no call. -/
def start (docs : Collection) (lists : Nat → List R) (clock : DateTime) : Tracing R :=
  { docs, lists, calls := fun _ => ⟨0, .idle⟩, clock, opened := lists, origin := fun _ => none }

/-- A form in flight has fields. -/
def filled (R : Type) [Screen R] : Property R where
  record _ := True
  form form _ := form ≠ []
  id _ := True

theorem supplies_filled {s : App R} {a : Act} : Supplies s a (filled R) (filled R) where
  implies := ⟨fun _ => id, fun _ _ => id, fun _ => id⟩
  reloaded _ _ _ _ _ _ := id
  filled _ _ _ _ _ _ := newForm_ne_nil
  given _ _ _ _ _ _ _ := trivial
  stamped _ _ _ _ _ _ _ _ _ _ := trivial
  edited _ _ _ _ _ _ _ _ _ _ _ _ _ _ := trivial

/-- The record that a call is to write is the one its form makes. -/
structure Inv (s : Tracing R) : Prop where
  filled : Holds (filled R) s.toApp
  written : ∀ i r, (s.calls i).stage = .write r → ∃ form user now, s.origin i = some (.add form user now) ∧ form ≠ [] ∧
    newRecord form (key r) user now = .ok r

theorem inv_start {docs : Collection} {lists : Nat → List R} {clock : DateTime} (h : ∀ e ∈ docs, ∃ r : R, e = (key r, doc r)) :
    Inv (start docs lists clock) where
  filled :=
    { docs := fun e he => by
        obtain ⟨r, hr⟩ := h e he
        exact ⟨r, hr, trivial⟩
      lists := fun _ _ _ => trivial
      opened := fun _ _ _ => trivial
      calls := fun _ => trivial }
  written _ _ h := by cases h

section

variable {s : Tracing R} {a : Act} {r : R} {docs : Collection} {id : String}

/-! ## Operations at once -/

@[simp] theorem apply_save : apply docs (.save r) = docs.set (key r) (doc r) := by
  simp only [apply, Notifier.save]
  split <;> rfl

@[simp] theorem apply_remove : apply docs (.remove id : Op R) = docs.erase id := rfl

theorem apply_add {form : DynMap} {user : String} {now : DateTime} (hg : Notifier.generateId R {} docs = .ok (key r))
    (hform : form ≠ []) (hr : newRecord form (key r) user now = .ok r) :
    apply docs (.add form user now : Op R) = docs.set (key r) (doc r) := by
  simp only [apply, Notifier.add, hg, if_neg hform, hr]
  rfl

/-! ## One step -/

theorem stamps_move {m : Move Nat} {form : DynMap} {user uid : String} (hs : (s.calls m.call).stage = .stamp form user uid) :
    (step s (.move m)).origin m.call = some (.add form user m.now) := by
  simp [step, stamps, hs]

/-- Only a call that stamps gets another origin. -/
theorem origin_step {i : Nat} (h : ∀ op, stamps s.toApp a ≠ some (i, op)) : (step s a).origin i = s.origin i := by
  cases hs : stamps s.toApp a with
  | none => simp [step, hs]
  | some x =>
    have hi : i ≠ x.1 := fun hi => h x.2 (hi ▸ hs)
    simp [step, hs, hi]

/-- What a call is to write keeps its origin, or has just been given it. -/
theorem written_step (h : Inv s) {i : Nat} (hr : ((step s a).calls i).stage = .write r) :
    ∃ form user now, (step s a).origin i = some (.add form user now) ∧ form ≠ [] ∧ newRecord form (key r) user now = .ok r := by
  have hc := s.toApp.becomes a i
  have hr : ((s.toApp.step a).calls i).stage = .write r := hr
  generalize (s.toApp.step a).calls i = c at hc hr
  have hsame (hstage : (s.calls i).stage = .write r) : (step s a).origin i = s.origin i := by
    refine origin_step fun op hs => ?_
    obtain ⟨_, _, _, hst⟩ := stamps_eq_some hs
    rw [hstage] at hst
    cases hst
  cases hc with
  | kept =>
    rw [hsame hr]
    exact h.written i r hr
  | @moved m x hm hi hadv =>
    subst hm hi
    have hbears := h.filled.calls m.call
    generalize hs : (s.calls m.call).stage = stage at hadv hbears
    cases hadv with
    | @stamped form user uid _ hnew =>
      obtain rfl := Stage.write.inj hr
      refine ⟨form, user, m.now, stamps_move hs, hbears.1, ?_⟩
      rwa [(newRecord_stamped hnew).1]
    | done =>
      rw [hsame (hs.trans hr)]
      exact h.written m.call r (hs.trans hr)
    | _ => cases hr
  | begun hb =>
    cases hb with
    | _ => cases hr

theorem Inv.step (h : Inv s) : Inv (Linear.step s a) := ⟨h.filled.step supplies_filled, fun _ _ => written_step h⟩

/-- **A step does to the collection what the operation does that it carries out**, and nothing where it carries out none. -/
theorem docs_step (h : Inv s) (hcur : Current s a) :
    (Linear.step s a).docs = (emit s a).toList.foldl apply s.docs := by
  have hsteps := s.toApp.steps a
  show (s.toApp.step a).docs = _
  generalize s.toApp.step a = s' at hsteps
  cases hsteps with
  | @moved m =>
    have hadv := advances m.now m.ok (s.seen (s.calls m.call).client) (s.calls m.call).stage
    have hwritten := h.written m.call
    simp only [System.step, emit]
    simp only [Current] at hcur
    generalize (advance m.now m.ok (s.seen (s.calls m.call).client) (s.calls m.call).stage) = x at hadv
    generalize (s.calls m.call).stage = stage at hadv hwritten hcur
    cases hok : m.ok with
    | false =>
      rw [hok] at hadv
      cases hadv with
      | _ => rfl
    | true =>
      rw [hok] at hadv
      cases hadv with
      | @wrote r =>
        obtain ⟨form, user, now, ho, hform, hr⟩ := hwritten r rfl
        simp [ho, apply_add (hcur r rfl hok) hform hr, Notifier.upsert, seen]
      | updated => simp [Notifier.upsert, seen]
      | deleted => simp [Notifier.delete, seen]
      | @done stage hdone =>
        cases stage with
        | write | update | delete => cases hdone
        | _ => rfl
      | _ => rfl
  | opened => rfl
  | @begun _ _ _ _ hm | idle hm =>
    cases a with
    | move m => exact absurd rfl (hm m)
    | _ => rfl

end

/-! ## Whole runs -/

section

variable {docs : Collection} {lists : Nat → List R} {clock : DateTime} {acts : List Act}

/-- What the operations leave that the acts carry out, each run alone and at once, in their order. -/
def replayed (docs : Collection) (lists : Nat → List R) (clock : DateTime) (acts : List Act) : Collection :=
  (emitted step emit (start docs lists clock) acts).foldl apply docs

theorem docs_run (hdocs : ∀ e ∈ docs, ∃ r : R, e = (key r, doc r)) (h : Along step Current (start docs lists clock) acts) :
    (run step (start docs lists clock) acts).docs = replayed docs lists clock acts :=
  Along.simulates (I := Inv) (V := fun s : Tracing R => s.docs) (fun _ _ hi hc => ⟨docs_step hi hc, hi.step⟩)
    (inv_start hdocs) h

theorem toApp_run {s₀ : Tracing R} : (run step s₀ acts).toApp = run App.step s₀.toApp acts := by
  induction acts generalizing s₀ with
  | nil => rfl
  | cons a acts ih => exact ih

end

/-- The collection is what the operations leave, one after the other, and every load in flight has read what some of
them leave, not fewer than were carried out when it was made. -/
structure Linearized (docs : Collection) (lists : Nat → List R) (clock : DateTime) (acts : List Act) : Prop where
  writes : (run step (start docs lists clock) acts).docs = replayed docs lists clock acts
  reads : ∀ i ds, ((run step (start docs lists clock) acts).calls i).stage = .assign ds →
    ∃ pre client mid post, acts = pre ++ .load i client :: (mid ++ post) ∧
      ds = query (replayed docs lists clock (pre ++ .load i client :: mid)) "createdAt" 25

/-- **The collection is linearizable**: in every run, in which adds write under the id that is then the next one, of
any number of clients, from any collection of saved records, with calls that overlap and remote calls that fail. Each
operation takes effect at once, when its write goes through, or its query is read. -/
theorem linearized {docs : Collection} (lists : Nat → List R) (clock : DateTime) {acts : List Act}
    (hdocs : ∀ e ∈ docs, ∃ r : R, e = (key r, doc r)) (h : Along step Current (start docs lists clock) acts) :
    Linearized docs lists clock acts where
  writes := docs_run hdocs h
  reads i ds hi := by
    rw [toApp_run] at hi
    have hread : Reads (start docs lists clock).toApp acts i ds := Reading.reads_run (by simp [start]) (by simp [start]) hi
    obtain ⟨pre, client, mid, post, rfl, hds⟩ := hread
    refine ⟨pre, client, mid, post, rfl, ?_⟩
    rw [← List.cons_append, ← List.append_assoc, along_append] at h
    rw [hds, ← docs_run hdocs h.1, toApp_run]

instance {s : Tracing R} {a : Act} : Decidable (Current s a) :=
  match a with
  | .move m =>
    match hs : (s.calls m.call).stage with
    | .write r =>
      if h : m.ok → Notifier.generateId R {} s.docs = .ok (key r) then
        .isTrue fun r' hr hok => by
          rw [hs] at hr
          exact Stage.write.inj hr ▸ h hok
      else .isFalse fun hc => h (hc r hs)
    | .idle | .load | .assign _ | .add _ _ | .stamp _ _ _ | .prepend _ | .update _ | .replace _ | .remove _ | .delete _
    | .loaded | .added _ | .updated _ | .removed _ | .unlisted _ | .skipped | .threw _ =>
      .isTrue fun r hr => by rw [hs] at hr; cases hr
  | .load _ _ | .add _ _ _ _ | .edit _ _ | .submit _ _ _ _ _ _ | .remove _ _ _ => .isTrue trivial

/-- Two patients. -/
def two : Collection :=
  (SortedMap.empty.set "P-1" (doc (AddPatientScreen.registered "P-1" (.reading 1)))).set "P-2"
    (doc (AddPatientScreen.registered "P-2" (.reading 2)))

theorem saved_two : ∀ e ∈ two, ∃ p : Patient, e = (key p, doc p) := by
  intro e he
  rcases SortedMap.mem_set.1 he with rfl | ⟨he, -⟩
  · exact ⟨AddPatientScreen.registered "P-2" (.reading 2), rfl⟩
  · rcases SortedMap.mem_set.1 he with rfl | ⟨he, -⟩
    · exact ⟨AddPatientScreen.registered "P-1" (.reading 1), rfl⟩
    · exact absurd he SortedMap.not_mem_empty

/-- A third is registered while the first is removed, and a load reads in between. -/
def overlapping : List Act :=
  [ .add 0 0 AddPatientScreen.filledIn "U", .remove 1 1 "P-1", .load 2 1, .move ⟨0, .reading 3, true⟩,
    .move ⟨1, .reading 3, true⟩, .move ⟨0, .reading 3, true⟩, .move ⟨1, .reading 3, true⟩, .move ⟨2, .reading 3, true⟩,
    .move ⟨0, .reading 3, true⟩ ]

theorem linearized_overlapping : Linearized (R := Patient) two (fun _ => []) (.reading 2) overlapping :=
  linearized (fun _ => []) (.reading 2) saved_two (by decide +kernel)

end Linear
