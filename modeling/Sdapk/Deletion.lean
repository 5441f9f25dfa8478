/-
A deletion that is not final. An update writes with the `set` an add writes
with, which makes a document that is not there: the patient of a stale entry,
screen or call comes back. Beside the app stand the ids deleted so far, which
no step looks at; `final_along` says which runs leave them deleted.
-/
import Sdapk.Codec
import Sdapk.Loadable

namespace Deletion

open Dart Firestore Entity Screen Runs System

variable {R : Type}

/-- The app, and the ids whose deletes have been applied. -/
structure Deleting (R : Type) extends App R where
  deleted : List String

/-- Where the call is that an act lets proceed. -/
def stageAt (s : App R) : Act → Stage R
  | .move m => (s.calls m.call).stage
  | _ => .idle

/-- The remote call of an act goes through. -/
def goesThrough : Act → Bool
  | .move m => m.ok
  | _ => false

/-- The record a call is to write: by an add, or by an update. -/
def written : Stage R → Option R
  | .write r | .update r => some r
  | _ => none

/-- The id whose document a call is to delete. -/
def removing : Stage R → Option String
  | .delete id => some id
  | _ => none

theorem written_of_done {stage : Stage R} (h : remaining stage = 0) : written stage = none := by
  cases stage <;> first | rfl | cases h

theorem removing_of_done {stage : Stage R} (h : remaining stage = 0) : removing stage = none := by
  cases stage <;> first | rfl | cases h

/-- The id whose document an act deletes. -/
def deletes (s : App R) (a : Act) : Option String := if goesThrough a then removing (stageAt s a) else none

variable [Screen R]

def step (s : Deleting R) (a : Act) : Deleting R :=
  { toApp := s.toApp.step a, deleted := (deletes s.toApp a).toList ++ s.deleted }

/-- Deleted, and not stored since. -/
def Gone (s : Deleting R) (id : String) : Prop := id ∈ s.deleted ∧ id ∉ s.docs.keys

/-- Nothing but an add stores a document that is gone. -/
def Final (s : Deleting R) (a : Act) : Prop :=
  (∀ r, stageAt s.toApp a ≠ .write r) → ∀ id, Gone s id → id ∉ (step s a).docs.keys

/-- No update writes a document that is gone. -/
def WritesStored (s : Deleting R) (a : Act) : Prop :=
  ∀ r, stageAt s.toApp a = .update r → goesThrough a → ¬ Gone s (key r)

/-- No document is deleted that an update in flight is still to write, and no
form of a record whose document is gone is submitted. -/
def Timely (s : Deleting R) : Act → Prop
  | .move m => ∀ id ∈ deletes s.toApp (.move m), ∀ i r, (s.calls i).stage = .update r → key r ≠ id
  | .submit _ client i _ _ _ => ∀ r ∈ (s.opened client)[i]?, ¬ Gone s (key r)
  | _ => True

/-- No update in flight is still to write a document that is gone. -/
def Inv (s : Deleting R) : Prop := ∀ i r, (s.calls i).stage = .update r → ¬ Gone s (key r)

variable {s : Deleting R} {a : Act} {id : String}

/-! ## One step -/

theorem mem_keys_advance {now : DateTime} {ok : Bool} {w : World R} {stage : Stage R} {x : World R × Stage R}
    (h : Advances now ok w stage x) : id ∈ x.1.docs.keys ↔
      (ok ∧ ∃ r, written stage = some r ∧ key r = id) ∨ id ∈ w.docs.keys ∧ ¬ (ok ∧ removing stage = some id) := by
  cases h with
  | wrote | updated => cases ok <;> simp [Notifier.upsert, written, removing, eq_comm]
  | deleted => cases ok <;> simp [Notifier.delete, written, removing, eq_comm]
  | done h => simp [written_of_done h, removing_of_done h]
  | _ => simp [written, removing]

/-- **What a step makes of the names stored.** -/
theorem mem_keys_step : id ∈ (step s a).docs.keys ↔
    (goesThrough a ∧ ∃ r, written (stageAt s.toApp a) = some r ∧ key r = id) ∨
      id ∈ s.docs.keys ∧ deletes s.toApp a ≠ some id := by
  have hsteps := s.steps a
  show id ∈ (s.toApp.step a).docs.keys ↔ _
  generalize s.toApp.step a = s' at hsteps ⊢
  cases hsteps with
  | @moved m =>
    have hadv := advances m.now m.ok (s.seen (s.calls m.call).client) (s.calls m.call).stage
    have hmem := @mem_keys_advance _ _ id _ _ _ _ _ hadv
    by_cases hok : m.ok = true <;> simpa [deletes, stageAt, goesThrough, System.step, seen, hok] using hmem
  | opened => simp [goesThrough, deletes]
  | begun hm | idle hm =>
    cases a with
    | move m => exact absurd rfl (hm m)
    | _ => simp [goesThrough, deletes]

/-- Gone after a step is gone before it, or deleted by it. -/
theorem gone_step (h : Gone (step s a) id) : Gone s id ∨ deletes s.toApp a = some id := by
  obtain ⟨hd, hk⟩ := h
  by_cases hdel : deletes s.toApp a = some id
  · exact .inr hdel
  · have hdeleted : id ∈ s.deleted := by
      rcases List.mem_append.1 hd with hd | hd
      · exact absurd (Option.mem_toList.1 hd) hdel
      · exact hd
    exact .inl ⟨hdeleted, fun hmem => hk (mem_keys_step.2 (.inr ⟨hmem, hdel⟩))⟩

/-- Nothing comes back exactly where no update writes what is gone. -/
theorem final_iff : Final s a ↔ WritesStored s a := by
  constructor
  · intro h r hr ho hg
    exact h (fun r' hr' => by cases hr.symm.trans hr') _ hg (mem_keys_step.2 (.inl ⟨ho, r, by rw [hr]; rfl, rfl⟩))
  · intro h hadd id hg hmem
    rcases mem_keys_step.1 hmem with ⟨ho, r, hr, rfl⟩ | ⟨hmem, -⟩
    · cases hstage : stageAt s.toApp a with
      | write r' => exact absurd hstage (hadd r')
      | update r' =>
        rw [hstage] at hr
        obtain rfl := Option.some.inj hr
        exact h r' hstage ho hg
      | _ =>
        rw [hstage] at hr
        cases hr
    · exact hg.2 hmem

/-- An update that is still to write was so before, or is of a form just submitted. -/
theorem update_step {i : Nat} {r : R} (h : ((s.step a).calls i).stage = .update r) : (s.calls i).stage = .update r ∨
    ∃ call client j changes user now, a = .submit call client j changes user now ∧
      ∃ r₀, (s.opened client)[j]? = some r₀ ∧ key r = key r₀ := by
  have hc := s.becomes a i
  generalize (s.step a).calls i = c at hc h
  cases hc with
  | kept => exact .inl h
  | moved _ _ hadv =>
    generalize (s.calls i).stage = stage at hadv ⊢
    cases hadv <;> first | exact .inl h | cases h
  | @begun client stage hb =>
    obtain rfl : stage = .update r := h
    cases hb with
    | update h₀ _ he => exact .inr ⟨_, _, _, _, _, _, rfl, _, h₀, (edited_keeps he).1⟩

theorem Timely.ne_of_deletes (ht : Timely s a) (hd : deletes s.toApp a = some id) {i : Nat} {r : R}
    (hr : (s.calls i).stage = .update r) : key r ≠ id := by
  cases a with
  | move m => exact ht id hd i r hr
  | _ => cases hd

theorem inv_step (hi : Inv s) (ht : Timely s a) : Inv (step s a) := by
  intro i r hr hg
  rcases update_step hr with hr | ⟨call, client, j, changes, user, now, rfl, r₀, hr₀, hk⟩
  · rcases gone_step hg with hg | hd
    · exact hi i r hr hg
    · exact ht.ne_of_deletes hd hr rfl
  · rcases gone_step hg with hg | hd
    · exact ht r₀ hr₀ (hk ▸ hg)
    · cases hd

theorem step_final (hi : Inv s) (ht : Timely s a) : Final s a ∧ Inv (step s a) := by
  refine ⟨final_iff.2 fun r hr ho => ?_, inv_step hi ht⟩
  cases a with
  | move m => exact hi m.call r hr
  | _ => cases ho

/-! ## Whole runs -/

/-- **A deletion is final as long as** no document is deleted that an update
in flight is still to write, and no form of a record whose document is gone
is submitted; and exactly as long as no update writes a document that is
gone: whatever is stored, listed, open and in flight at first. -/
theorem final_along (s : App R) (acts : List Act) :
    (Along step Timely ⟨s, []⟩ acts → Along step Final ⟨s, []⟩ acts) ∧
      (Along step Final ⟨s, []⟩ acts ↔ Along step WritesStored ⟨s, []⟩ acts) := by
  constructor
  · exact Along.of_invariant (I := Inv) (fun _ _ => step_final) fun i r _ hg => absurd hg.1 (by simp)
  · exact ⟨Along.mono fun _ _ => final_iff.1, Along.mono fun _ _ => final_iff.2⟩

instance : Decidable (Gone s id) := inferInstanceAs (Decidable (_ ∧ _))

theorem timely_move {m : Move Nat} (h : deletes s.toApp (.move m) = none) : Timely s (.move m) := by
  intro id hid
  rw [h] at hid
  cases hid

/-- A patient stored, and listed and open at two clients. -/
def registered : App Patient :=
  { docs := SortedMap.empty.set "P-1" (doc Codec.registeredPatient)
    lists := fun _ => [Codec.registeredPatient]
    calls := fun _ => ⟨0, .idle⟩
    clock := .reading 0
    opened := fun _ => [Codec.registeredPatient] }

/-- An edit goes through, and then the patient is deleted. -/
theorem final_along_after : Along step Final ⟨registered, []⟩
    [ .submit 1 1 0 [("address", .str "B")] "V" (.reading 1), .move { call := 1, now := .reading 2 },
      .remove 0 0 "P-1", .move { call := 0, now := .reading 3 }, .move { call := 0, now := .reading 4 },
      .load 2 1, .move { call := 2, now := .reading 5 } ] := by
  refine (final_along _ _).1 ⟨?_, ?_, trivial, ?_, ?_, trivial, ?_, trivial⟩
  · show ∀ r ∈ _, ¬ Gone _ (key r)
    decide +kernel
  · exact timely_move (by decide +kernel)
  · exact timely_move (by decide +kernel)
  · intro id hid i r hr
    match i with
    | 0 | 1 => cases hr
    | n + 2 => cases hr
  · exact timely_move (by decide +kernel)

/-- Two clients have a patient's entry; one deletes the patient, and the other submits its form. -/
def editedAfter : List Act :=
  [ .remove 0 0 "P-1", .move { call := 0, now := .reading 1 }, .move { call := 0, now := .reading 2 },
    .submit 1 1 0 [("address", .str "B")] "V" (.reading 3) ]

/-- **The deleted patient is stored again.** -/
theorem comes_back : ¬ Along step Final ⟨registered, []⟩ (editedAfter ++ [.move { call := 1, now := .reading 4 }]) := by
  intro h
  have hlast := (along_append.1 h).2.1
  have hstage : stageAt (run step ⟨registered, []⟩ editedAfter).toApp (.move { call := 1, now := .reading 4 }) =
      .update { Codec.registeredPatient with address := "B", updatedAt := some (.reading 3), updatedBy := some "V" } := by
    decide +kernel
  have hgone := hlast (fun r hr => by cases hstage.symm.trans hr) "P-1" (by decide +kernel)
  exact absurd hgone (by decide +kernel)

end Deletion
