/-
Two sessions side by side, one of patients and one of doctors, driven by
corresponding operations. Both show the same ledger at every moment, so their
lists and collections agree in numbers and audit fields, and an operation
completes in the one where it does in the other (`twin_along`).
-/
import Sdapk.Ledger

namespace Twin

open Dart Firestore Entity Screen Session Runs

/-- An operation of both sessions. -/
inductive TwinOp
  | load
  | add (patient doctor : DynMap)
  | edit (i : Nat) (patient doctor : DynMap)
  | remove (i : Nat)

/-- The operation, the user and the clock's reading of both, and what the remote calls of both come to. -/
structure TwinEvent where
  op : TwinOp
  user : String
  now : DateTime
  outcome : Outcome := {}

def TwinEvent.patient (e : TwinEvent) : Event :=
  { op := match e.op with
      | .load => .load
      | .add patient _ => .add patient
      | .edit i patient _ => .edit i patient
      | .remove i => .removeAt i
    user := some e.user, now := e.now, outcome := e.outcome }

def TwinEvent.doctor (e : TwinEvent) : Event :=
  { op := match e.op with
      | .load => .load
      | .add _ doctor => .add doctor
      | .edit i _ doctor => .edit i doctor
      | .remove i => .removeAt i
    user := some e.user, now := e.now, outcome := e.outcome }

abbrev State := World Patient × World Staff

def start : State := (.empty, .empty)

def step (t : State) (e : TwinEvent) : State := ((perform e.patient t.1).1, (perform e.doctor t.2).1)

/-- Both forms are accepted, or neither is. -/
def Corresponds (t : State) (e : TwinEvent) : Prop :=
  match e.op with
  | .add patient doctor => Accepted Patient (newForm Patient patient) ↔ Accepted Staff (newForm Staff doctor)
  | .edit i patient doctor => ∀ p ∈ t.1.state[i]?, ∀ d ∈ t.2.state[i]?,
      (Accepted Patient (editForm p patient) ↔ Accepted Staff (editForm d doctor))
  | _ => True

/-- The lists agree, and the collections, in numbers and audit fields. -/
def Agree (t : State) : Prop :=
  t.1.state.map Ledger.view = t.2.state.map Ledger.view ∧
    t.1.docs.entries.map Ledger.viewDoc = t.2.docs.entries.map Ledger.viewDoc

/-- The operation completes in both sessions, or throws in both. -/
def Together (t : State) (e : TwinEvent) : Prop :=
  (perform e.patient t.1).2.isOk = (perform e.doctor t.2).2.isOk

/-- Both sessions show one ledger. -/
def Inv (t : State) : Prop := ∃ a, Ledger.Shows t.1 a ∧ Ledger.Shows t.2 a

theorem Inv.agree {t : State} : Inv t → Agree t := by
  rintro ⟨a, hp, hd⟩
  exact ⟨hp.state.trans hd.state.symm, hp.docs.trans hd.docs.symm⟩

/-- An index is in both lists, or in neither. -/
theorem getElem?_twin {t : State} (h : Agree t) (i : Nat) :
    (t.1.state[i]? = none ∧ t.2.state[i]? = none) ∨ ∃ p d, t.1.state[i]? = some p ∧ t.2.state[i]? = some d := by
  have hi := congrArg (·[i]?) h.1
  simp only [List.getElem?_map] at hi
  cases hp : t.1.state[i]? <;> cases hd : t.2.state[i]? <;> simp_all

theorem inv_step {t : State} {e : TwinEvent} (h : Inv t) (hc : Corresponds t e) : Together t e ∧ Inv (step t e) := by
  have hagree := h.agree
  obtain ⟨a, hp, hd⟩ := h
  -- Both sessions do what one operation of the ledger does.
  have key : ∀ {x : World Patient × Except Error Unit} {y : World Staff × Except Error Unit} (b : Ledger × Bool),
      Ledger.Shows x.1 b.1 ∧ x.2.isOk = b.2 → Ledger.Shows y.1 b.1 ∧ y.2.isOk = b.2 →
        x.2.isOk = y.2.isOk ∧ ∃ a, Ledger.Shows x.1 a ∧ Ledger.Shows y.1 a :=
    fun b hx hy => ⟨hx.2.trans hy.2.symm, b.1, hx.1, hy.1⟩
  obtain ⟨op, user, now, o⟩ := e
  cases op with
  | load => exact key (a.load o) hp.load hd.load
  | add patient doctor =>
    have hacc : Forms.accepts fields (newForm Staff doctor) = Forms.accepts fields (newForm Patient patient) :=
      (Bool.eq_iff_iff.2 hc).symm
    exact key (a.add _ user now o) (hp.add rfl) (hd.add hacc)
  | edit i patient doctor =>
    rcases getElem?_twin hagree i with ⟨hp', hd'⟩ | ⟨p, d, hp', hd'⟩
    · have hidle : ∀ {R : Type} [Screen R] {w : World R} {changes : DynMap}, w.state[i]? = none →
          perform { op := .edit i changes, user := some user, now, outcome := o } w = (w, .ok ()) := by
        intro R _ w changes hi
        simp only [perform, hi]
      simp only [Together, step, TwinEvent.patient, TwinEvent.doctor, hidle hp', hidle hd']
      exact ⟨trivial, a, hp, hd⟩
    · have hacc : Forms.accepts fields (editForm d doctor) = Forms.accepts fields (editForm p patient) :=
        (Bool.eq_iff_iff.2 (hc p hp' d hd')).symm
      simp only [Together, step, TwinEvent.patient, TwinEvent.doctor, perform, hp', hd']
      exact key (a.edit i _ user now o) (hp.edit hp' rfl) (hd.edit hd' hacc)
  | remove i =>
    rcases getElem?_twin hagree i with ⟨hp', hd'⟩ | ⟨p, d, hp', hd'⟩
    · simp only [Together, step, TwinEvent.patient, TwinEvent.doctor, perform, hp', hd']
      exact ⟨trivial, a, hp, hd⟩
    · simp only [Together, step, TwinEvent.patient, TwinEvent.doctor, perform, hp', hd']
      exact key (a.remove i o) (hp.remove hp') (hd.remove hd')

/-- **The two machines are one**: along every run of corresponding operations
the lists and the collections agree after each operation, and each operation
completes in both sessions or throws in both. -/
theorem twin_along (es : List TwinEvent) (h : Along step Corresponds start es) :
    Along step (fun t e => Agree (step t e) ∧ Together t e) start es :=
  Along.of_invariant (I := Inv)
    (fun _ _ hi hc => have h := inv_step hi hc; ⟨⟨h.2.agree, h.1⟩, h.2⟩) ⟨_, .empty, .empty⟩ h

instance {t : State} {e : TwinEvent} : Decidable (Corresponds t e) :=
  match e with
  | ⟨.load, _, _, _⟩ => .isTrue trivial
  | ⟨.add _ _, _, _, _⟩ => inferInstanceAs (Decidable (_ ↔ _))
  | ⟨.edit i _ _, _, _, _⟩ => inferInstanceAs (Decidable (∀ p ∈ t.1.state[i]?, ∀ d ∈ t.2.state[i]?, _))
  | ⟨.remove _, _, _, _⟩ => .isTrue trivial

/-- A patient and a doctor are added, the lists loaded, the entries edited
while the writes fail, and removed. -/
theorem twin_edited :
    Along step (fun t e => Agree (step t e) ∧ Together t e) start
      [ { op := .add AddPatientScreen.filledIn AddDoctorScreen.filledIn, user := "U", now := .reading 1 },
        { op := .load, user := "U", now := .reading 2 },
        { op := .edit 0 [("address", .str "B")]
            [("date_of_joining", .dateTime (.reading 0)), ("education", .str "E"), ("role", .str "R")],
          user := "V", now := .reading 3, outcome := { write := false } },
        { op := .remove 0, user := "V", now := .reading 3 } ] :=
  twin_along _ (by decide +kernel)

end Twin
