/-
Calls in flight. A call of a notifier waits wherever it awaits a remote call;
between two waits it runs alone. A `Stage` is what a call has still to do, and
a step of the system lets one call do the next of it: against the one
collection, and the list of its client.

Run on its own, a call is the notifier's operation (`solo_add` and the
others).
-/
import Mathlib.Data.Fintype.Basic
import Mathlib.Logic.Function.Basic
import Sdapk.AddDoctorScreen
import Sdapk.AddPatientScreen
import Sdapk.Register
import Sdapk.Runs

open Dart Firestore Entity Screen Register Runs

/-- What a call has still to do, or what has come of it. -/
inductive Stage (R : Type)
  /-- No call. -/
  | idle
  /-- A load: to read the query, and to assign what it read. -/
  | load
  | assign (docs : List Doc)
  /-- An add: to query for the latest id, to decode and stamp, to write, and to list. -/
  | add (form : DynMap) (user : String)
  | stamp (form : DynMap) (user uid : String)
  | write (r : R)
  | prepend (r : R)
  /-- An update, which is decoded when it is made: to write, and to replace its entry. -/
  | update (r : R)
  | replace (r : R)
  /-- A remove: to take out its entry, and to delete. -/
  | remove (id : String)
  | delete (id : String)
  | loaded
  | added (r : R)
  | updated (r : R)
  | removed (id : String)
  /-- An update that found no entry, and threw. -/
  | unlisted (r : R)
  | skipped
  | threw (e : Error)
  deriving DecidableEq

/-- A call of a client. -/
structure Call (R : Type) where
  client : Nat
  stage : Stage R

/-- The collection, the list of each client, the calls, and the clock's last reading. -/
structure System (ι R : Type) where
  docs : Collection
  lists : Nat → List R
  calls : ι → Call R
  clock : DateTime

/-- One call does the next thing, at a reading of the clock; a remote call may fail. -/
structure Move (ι : Type) where
  call : ι
  now : DateTime
  ok : Bool := true

namespace System

variable {ι R : Type} [DecidableEq ι]

section

variable {P : Stage R → Prop} {calls : ι → Call R} {c : Call R} {i : ι}

theorem iff_moved (h : P (calls i).stage ↔ P c.stage) (j : ι) :
    P (calls j).stage ↔ P (Function.update calls i c j).stage := by
  by_cases hj : j = i
  · subst hj
    rw [Function.update_self, h]
  · rw [Function.update_of_ne hj]

theorem or_iff_moved (h : P c.stage) (j : ι) :
    (j = i ∨ P (calls j).stage) ↔ P (Function.update calls i c j).stage := by
  by_cases hj : j = i
  · subst hj
    rw [Function.update_self]
    exact ⟨fun _ => h, fun _ => .inl rfl⟩
  · rw [Function.update_of_ne hj]
    exact or_iff_right hj

end

variable [Screen R]

/-- The next thing a stage does. -/
def advance (now : DateTime) (ok : Bool) (w : World R) : Stage R → World R × Stage R
  | .load => if ok then (w, .assign (query w.docs "createdAt" 25)) else (w, .threw .firebaseException)
  | .assign docs =>
    match docs.mapM fromMap with
    | .ok state => ({ w with state }, .loaded)
    | .error e => (w, .threw e)
  | .add form user =>
    match Notifier.generateId R { query := ok } w.docs with
    | .ok uid => (w, .stamp form user uid)
    | .error e => (w, .threw e)
  | .stamp form user uid =>
    if form = [] then (w, .skipped) else
    match newRecord form uid user now with
    | .ok r => (w, .write r)
    | .error e => (w, .threw e)
  | .write r => ({ w with docs := Notifier.upsert r { write := ok } w.docs }, .prepend r)
  | .prepend r => ({ w with state := r :: w.state }, .added r)
  | .update r => ({ w with docs := Notifier.upsert r { write := ok } w.docs }, .replace r)
  | .replace r =>
    match Notifier.replaced r w.state with
    | .ok state => ({ w with state }, .updated r)
    | .error _ => (w, .unlisted r)
  | .remove id => ({ w with state := Keyed.without key id w.state }, .delete id)
  | .delete id => ({ w with docs := Notifier.delete id { write := ok } w.docs }, .removed id)
  | stage => (w, stage)

/-- An accepted edit, as it is called. -/
def updateStage (decoded : Except Error R) : Stage R :=
  match decoded with
  | .ok r => .update r
  | .error e => .threw e

/-- The collection and the list a client sees. -/
def seen (s : System ι R) (client : Nat) : World R := ⟨s.docs, s.lists client⟩

/-- The clock is read when a new record is stamped. -/
def readings (clock now : DateTime) : Stage R → DateTime
  | .stamp _ _ _ => now
  | _ => clock

def step (s : System ι R) (m : Move ι) : System ι R :=
  let c := s.calls m.call
  let x := advance m.now m.ok (s.seen c.client) c.stage
  { docs := x.1.docs
    lists := Function.update s.lists c.client x.1.state
    calls := Function.update s.calls m.call { c with stage := x.2 }
    clock := readings s.clock m.now c.stage }

/-! ## Where a call is -/

def Stamping : Stage R → Bool
  | .stamp _ _ _ => true
  | _ => false

/-- The clock has moved on when a record is stamped. -/
def Ticks (s : System ι R) (m : Move ι) : Prop := Stamping (s.calls m.call).stage → s.clock.isBefore m.now

instance {s : System ι R} {m : Move ι} : Decidable (Ticks s m) := inferInstanceAs (Decidable (_ → _))

/-- The call is past what it does to the collection. -/
def Stored : Stage R → Prop
  | .prepend _ | .added _ | .replace _ | .updated _ | .unlisted _ | .removed _ => True
  | _ => False

/-- The call is past what it does to its client's list. -/
def Listed : Stage R → Prop
  | .added _ | .updated _ | .unlisted _ | .delete _ | .removed _ => True
  | _ => False

instance : DecidablePred (Listed : Stage R → Prop)
  | .added _ | .updated _ | .unlisted _ | .delete _ | .removed _ => .isTrue trivial
  | .idle | .load | .assign _ | .add _ _ | .stamp _ _ _ | .write _ | .prepend _ | .update _ | .replace _ | .remove _
  | .loaded | .skipped | .threw _ => .isFalse id

instance : DecidablePred (Stored : Stage R → Prop)
  | .prepend _ | .added _ | .replace _ | .updated _ | .unlisted _ | .removed _ => .isTrue trivial
  | .idle | .load | .assign _ | .add _ _ | .stamp _ _ _ | .write _ | .update _ | .remove _ | .delete _
  | .loaded | .skipped | .threw _ => .isFalse id

/-- How many things a call has still to do, at most. -/
def remaining : Stage R → Nat
  | .add _ _ => 4
  | .stamp _ _ _ => 3
  | .load | .write _ | .update _ | .remove _ => 2
  | .assign _ | .prepend _ | .replace _ | .delete _ => 1
  | _ => 0

/-! ## How a call proceeds -/

section

variable {now : DateTime} {ok : Bool} {w : World R} {stage : Stage R} {x : World R × Stage R}

/-- **What the next thing can come to.** -/
inductive Advances (now : DateTime) (ok : Bool) (w : World R) : Stage R → World R × Stage R → Prop
  | read : Advances now ok w .load (w, .assign (query w.docs "createdAt" 25))
  | assigned {docs : List Doc} {state : List R} (h : docs.mapM fromMap = .ok state) :
      Advances now ok w (.assign docs) ({ w with state }, .loaded)
  | given {form : DynMap} {user uid : String} (h : Notifier.generateId R { query := ok } w.docs = .ok uid) :
      Advances now ok w (.add form user) (w, .stamp form user uid)
  | skipped {user uid : String} : Advances now ok w (.stamp [] user uid) (w, .skipped)
  | stamped {form : DynMap} {user uid : String} {r : R} (h : newRecord form uid user now = .ok r) :
      Advances now ok w (.stamp form user uid) (w, .write r)
  | wrote {r : R} : Advances now ok w (.write r) ({ w with docs := Notifier.upsert r { write := ok } w.docs }, .prepend r)
  | prepended {r : R} : Advances now ok w (.prepend r) ({ w with state := r :: w.state }, .added r)
  | updated {r : R} : Advances now ok w (.update r) ({ w with docs := Notifier.upsert r { write := ok } w.docs }, .replace r)
  | replaced {r : R} {state : List R} (h : Notifier.replaced r w.state = .ok state) :
      Advances now ok w (.replace r) ({ w with state }, .updated r)
  | unlisted {r : R} (h : key r ∉ w.state.map key) : Advances now ok w (.replace r) (w, .unlisted r)
  | removed {id : String} : Advances now ok w (.remove id) ({ w with state := Keyed.without key id w.state }, .delete id)
  | deleted {id : String} :
      Advances now ok w (.delete id) ({ w with docs := Notifier.delete id { write := ok } w.docs }, .removed id)
  | unread (h : ok = false) : Advances now ok w .load (w, .threw .firebaseException)
  | undecoded {docs : List Doc} {e : Error} (h : docs.mapM (fromMap (R := R)) = .error e) :
      Advances now ok w (.assign docs) (w, .threw e)
  | ungiven {form : DynMap} {user : String} {e : Error} (h : Notifier.generateId R { query := ok } w.docs = .error e) :
      Advances now ok w (.add form user) (w, .threw e)
  | unstamped {form : DynMap} {user uid : String} {e : Error} (h : (newRecord form uid user now : Except Error R) = .error e) :
      Advances now ok w (.stamp form user uid) (w, .threw e)
  | done {stage : Stage R} (h : remaining stage = 0) : Advances now ok w stage (w, stage)

theorem advances (now : DateTime) (ok : Bool) (w : World R) (stage : Stage R) :
    Advances now ok w stage (advance now ok w stage) := by
  cases stage with
  | load =>
    cases ok with
    | true => exact .read
    | false => exact .unread rfl
  | assign docs =>
    simp only [advance]
    split
    · next h => exact .assigned h
    · next h => exact .undecoded h
  | add form user =>
    simp only [advance]
    split
    · next h => exact .given h
    · next h => exact .ungiven h
  | stamp form user uid =>
    simp only [advance]
    split
    · next h => exact h ▸ .skipped
    · split
      · next h => exact .stamped h
      · next h => exact .unstamped h
  | write r => exact .wrote
  | prepend r => exact .prepended
  | update r => exact .updated
  | replace r =>
    simp only [advance]
    split
    · next h => exact .replaced h
    · next h => exact .unlisted (Notifier.replaced_eq_error.1 h).2
  | remove id => exact .removed
  | delete id => exact .deleted
  | _ => exact .done rfl

theorem Advances.remaining (h : Advances now ok w stage x) : remaining x.2 ≤ remaining stage - 1 := by
  cases h with
  | done h => exact h.le.trans (Nat.zero_le _)
  | _ => simp [System.remaining]

end

/-! ## One step, and whole runs -/

section

variable {s : System ι R} {m : Move ι} {ms : List (Move ι)} {i : ι} {client : Nat} {stage stage' : Stage R} {w : World R}

theorem step_eq (hc : s.calls m.call = ⟨client, stage⟩) (h : advance m.now m.ok (s.seen client) stage = (w, stage')) :
    step s m = ⟨w.docs, Function.update s.lists client w.state, Function.update s.calls m.call ⟨client, stage'⟩,
      readings s.clock m.now stage⟩ := by
  simp only [step, hc, h]

@[simp] theorem step_client : ((step s m).calls i).client = (s.calls i).client := by
  by_cases hi : i = m.call
  · subst hi
    simp [step]
  · simp [step, hi]

theorem calls_self : ((step s m).calls m.call).stage =
    (advance m.now m.ok (s.seen (s.calls m.call).client) (s.calls m.call).stage).2 := by
  simp [step]

theorem calls_other (hi : i ≠ m.call) : (step s m).calls i = s.calls i := by
  simp [step, hi]

theorem remaining_step : remaining ((step s m).calls i).stage ≤
    remaining (s.calls i).stage - (if m.call = i then 1 else 0) := by
  split
  · next hi =>
    subst hi
    rw [calls_self]
    exact (advances _ _ _ _).remaining
  · next hi =>
    rw [calls_other (Ne.symm hi)]
    exact le_rfl

theorem remaining_run :
    remaining ((run step s ms).calls i).stage ≤ remaining (s.calls i).stage - (ms.map (·.call)).count i := by
  induction ms generalizing s with
  | nil => simp
  | cons m ms ih =>
    have hstep : remaining ((step s m).calls i).stage ≤ _ := remaining_step
    have hrun : remaining ((run step (step s m) ms).calls i).stage ≤ _ := ih
    rw [run_cons, List.map_cons, List.count_cons]
    split at hstep
    · next hi =>
      rw [if_pos (beq_iff_eq.2 hi)]
      omega
    · next hi =>
      rw [if_neg fun h => hi (beq_iff_eq.1 h)]
      omega

/-- Every call is let do all it has to do. -/
def Complete (s : System ι R) (ms : List (Move ι)) : Prop :=
  ∀ i, remaining (s.calls i).stage ≤ (ms.map (·.call)).count i

instance [Fintype ι] : Decidable (Complete s ms) := inferInstanceAs (Decidable (∀ _, _ ≤ _))

/-- In a complete run no call has anything left to do. -/
theorem Complete.remaining_eq (h : Complete s ms) (i : ι) : remaining ((run step s ms).calls i).stage = 0 := by
  have hrun : remaining ((run step s ms).calls i).stage ≤ _ := remaining_run
  have := h i
  omega

end

/-! ## A call on its own -/

/-- A call that does one thing after the other, each remote call coming to what is said. -/
def solo (now : DateTime) (w : World R) (stage : Stage R) (oks : List Bool) : World R × Stage R :=
  oks.foldl (fun x ok => advance now ok x.1 x.2) (w, stage)

variable {now : DateTime} {o : Outcome} {w : World R} {r : R}

theorem solo_load : (solo now w .load [o.query, true]).1 = (Notifier.load o w).1 := by
  unfold Notifier.load Notifier.loaded
  cases o.query with
  | false => rfl
  | true =>
    simp only [solo, List.foldl_cons, List.foldl_nil, advance, if_true]
    cases (query w.docs "createdAt" 25).mapM (fromMap (R := R)) <;> rfl

theorem solo_add {form : DynMap} {user : String} :
    (solo now w (.add form user) [o.query, true, o.write, true]).1 =
      (Notifier.add form (fun uid => newRecord form uid user now) o w).1 := by
  have hg : Notifier.generateId R { query := o.query } w.docs = Notifier.generateId R o w.docs := rfl
  simp only [solo, List.foldl_cons, List.foldl_nil, advance, Notifier.add, hg]
  cases Notifier.generateId R o w.docs with
  | error e => rfl
  | ok uid =>
    by_cases hform : form = []
    · simp only [hform, if_true]
    · simp only [hform, if_false]
      cases (newRecord form uid user now : Except Error R) <;> rfl

theorem solo_update : (solo now w (.update r) [o.write, true]).1 = (Notifier.save r o w).1 := by
  have hu : Notifier.upsert r { write := o.write } w.docs = Notifier.upsert r o w.docs := rfl
  simp only [solo, List.foldl_cons, List.foldl_nil, advance, Notifier.save, hu]
  cases Notifier.replaced r w.state <;> rfl

theorem solo_remove {id : String} : (solo now w (.remove id) [true, o.write]).1 = (Notifier.remove id o w).1 := rfl

end System
