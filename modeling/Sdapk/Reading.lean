/-
What loads read, and when. Between its call and its answer a load has read
the query of the collection as it was at one moment (`reads_run`): nothing
older than the call, and nothing put together of two moments. So clients
that have loaded since the last write list the same (`converged`).
-/
import Sdapk.Loadable

namespace Reading

open Dart Firestore Entity Screen Register Runs System

variable {R : Type} [Screen R]

/-- The load of call `i` was made in the acts. -/
def Loading (acts : List Act) (i : Nat) : Prop := ∃ pre client post, acts = pre ++ .load i client :: post

/-- What call `i` has read is what the query finds after some of the acts, its load among them. -/
def Reads (s₀ : App R) (acts : List Act) (i : Nat) (ds : List Doc) : Prop :=
  ∃ pre client mid post, acts = pre ++ .load i client :: (mid ++ post) ∧
    ds = query (run App.step s₀ (pre ++ .load i client :: mid)).docs "createdAt" 25

/-- Where the load of call `i` is, and that what it has read it has read since it was made. -/
structure Inv (s₀ : App R) (i : Nat) (acts : List Act) (s : App R) : Prop where
  reached : s = run App.step s₀ acts
  loading : (s.calls i).stage = .load → Loading acts i
  reads : ∀ ds, (s.calls i).stage = .assign ds → Reads s₀ acts i ds

section

variable {s₀ s : App R} {acts : List Act} {i : Nat} {ds : List Doc} {a : Act}

theorem Loading.append (h : Loading acts i) : Loading (acts ++ [a]) i := by
  obtain ⟨pre, client, post, rfl⟩ := h
  exact ⟨pre, client, post ++ [a], by simp⟩

theorem Reads.append (h : Reads s₀ acts i ds) : Reads s₀ (acts ++ [a]) i ds := by
  obtain ⟨pre, client, mid, post, rfl, hds⟩ := h
  exact ⟨pre, client, mid, post ++ [a], by simp, hds⟩

theorem Inv.step (h : Inv s₀ i acts s) (a : Act) : Inv s₀ i (acts ++ [a]) (s.step a) := by
  have hc := s.becomes a i
  refine ⟨by rw [run_append, ← h.reached]; rfl, fun hi => ?_, fun ds hi => ?_⟩
  · generalize (s.step a).calls i = c at hc hi
    cases hc with
    | kept => exact (h.loading hi).append
    | @moved m x hm him hadv =>
      obtain ⟨w, stage⟩ := x
      obtain rfl : stage = .load := hi
      generalize hs : (s.calls i).stage = stage at hadv
      cases hadv with
      | done => exact (h.loading hs).append
    | begun hb =>
      cases hb with
      | load => exact ⟨acts, _, [], rfl⟩
      | _ => cases hi
  · generalize (s.step a).calls i = c at hc hi
    cases hc with
    | kept => exact (h.reads ds hi).append
    | @moved m x hm him hadv =>
      obtain ⟨w, stage⟩ := x
      obtain rfl : stage = .assign ds := hi
      generalize hs : (s.calls i).stage = stage at hadv
      cases hadv with
      | read =>
        obtain ⟨pre, client, post, rfl⟩ := h.loading hs
        exact ⟨pre, client, post, [a], by simp, by rw [← h.reached]; rfl⟩
      | done => exact (h.reads ds hs).append
    | begun hb =>
      cases hb with
      | _ => cases hi

/-- **A load reads the collection as it was at one moment since its call.** -/
theorem reads_run (hload : (s₀.calls i).stage ≠ .load) (hassign : ∀ ds, (s₀.calls i).stage ≠ .assign ds)
    (h : ((run App.step s₀ acts).calls i).stage = .assign ds) : Reads s₀ acts i ds := by
  have hstart : Inv s₀ i [] s₀ := ⟨rfl, fun hs => absurd hs hload, fun ds hs => absurd hs (hassign ds)⟩
  have hinv : Inv s₀ i acts (run App.step s₀ acts) := run_past (J := Inv s₀ i) (fun _ _ a h => h.step a) acts hstart
  exact hinv.reads ds h

end

/-! ## Once nothing is written any more -/

/-- An act that leaves the collection as it is. -/
def Quiet (s : App R) (a : Act) : Prop := (s.step a).docs = s.docs

instance {s : App R} {a : Act} : Decidable (Quiet s a) := inferInstanceAs (Decidable (_ = _))

/-- An act that leaves the client's list as it is. -/
def Resting (c : Nat) (s : App R) (a : Act) : Prop := (s.step a).lists c = s.lists c

/-- A load that the client makes in the acts is the last thing that is done to its list. -/
def Refreshed (s : App R) (acts : List Act) (c : Nat) : Prop :=
  ∃ before m rest ds, acts = before ++ .move m :: rest ∧
    (s.calls m.call).stage ≠ .load ∧ (∀ ds, (s.calls m.call).stage ≠ .assign ds) ∧
    (run App.step s before).calls m.call = ⟨c, .assign ds⟩ ∧
    Along App.step (Resting c) (run App.step s (before ++ [.move m])) rest

section

variable {s : App R} {acts : List Act} {c : Nat}

theorem quiet_run (h : Along App.step Quiet s acts) : (run App.step s acts).docs = s.docs := by
  induction acts generalizing s with
  | nil => rfl
  | cons a acts ih => exact (ih h.2).trans h.1

theorem resting_run (h : Along App.step (Resting c) s acts) : (run App.step s acts).lists c = s.lists c := by
  induction acts generalizing s with
  | nil => rfl
  | cons a acts ih => exact (ih h.2).trans h.1

theorem lists_assigned {m : Move Nat} {ds : List Doc} {l : List R} (hc : s.calls m.call = ⟨c, .assign ds⟩)
    (hm : ds.mapM fromMap = .ok l) : (s.step (.move m)).lists c = l := by
  have hadv : ∀ w : World R, advance m.now m.ok w (.assign ds) = ({ w with state := l }, .loaded) := fun w => by
    simp only [advance, hm]
  simp [App.step, System.step, hc, hadv]

/-- A load that is answered while nothing is written lists what a load of the collection finds. -/
theorem lists_of_refreshed {l : List R} (hl : Notifier.loaded R s.docs = .ok l) (hq : Along App.step Quiet s acts)
    (h : Refreshed s acts c) : (run App.step s acts).lists c = l := by
  obtain ⟨before, m, rest, ds, rfl, hload, hassign, hcall, hrest⟩ := h
  obtain ⟨pre, client, mid, post, hbefore, hds⟩ := reads_run hload hassign (congrArg Call.stage hcall)
  have hquiet : Along App.step Quiet s (pre ++ .load m.call client :: mid) := by
    rw [hbefore, ← List.cons_append, ← List.append_assoc, List.append_assoc, along_append] at hq
    exact hq.1
  rw [quiet_run hquiet] at hds
  calc (run App.step s (before ++ .move m :: rest)).lists c
      = (run App.step (run App.step s (before ++ [.move m])) rest).lists c := by rw [← run_append, List.append_assoc]; rfl
    _ = (run App.step s (before ++ [.move m])).lists c := resting_run hrest
    _ = ((run App.step s before).step (.move m)).lists c := by rw [run_append]; rfl
    _ = l := lists_assigned hcall (hds ▸ hl)

end

/-- Whatever a client lists that has loaded since nothing is written any more, it is the latest 25 documents. -/
structure Converged (R : Type) [Screen R] (clock : DateTime) (pre acts : List Act) : Prop where
  loads : ∃ l, Notifier.loaded R (run App.step (App.start R clock) (pre ++ acts)).docs = .ok l ∧
    ∀ c, Refreshed (run App.step (App.start R clock) pre) acts c →
      (run App.step (App.start R clock) (pre ++ acts)).lists c = l

/-- **The clients' lists converge**: after any run of any number of clients, and once nothing is written any more,
all clients that have loaded since then list the same records. -/
theorem converged (clock : DateTime) (pre acts : List Act)
    (hq : Along App.step Quiet (run App.step (App.start R clock) pre) acts) : Converged R clock pre acts where
  loads := by
    have hinv : App.Inv (run App.step (App.start R clock) pre) :=
      run_invariant (I := App.Inv) (fun _ a h => App.inv_step h a) pre App.inv_start
    obtain ⟨l, hl⟩ := hinv.loadable.loads
    refine ⟨l, ?_, fun c hc => ?_⟩
    · rw [run_append, quiet_run hq, hl]
    · rw [run_append]
      exact lists_of_refreshed hl hq hc

/-- One client registers a patient. -/
def registering : List Act :=
  [ .add 0 0 AddPatientScreen.filledIn "U", .move ⟨0, .reading 1, true⟩, .move ⟨0, .reading 1, true⟩,
    .move ⟨0, .reading 1, true⟩ ]

/-- It lists the patient only now, after it and another have asked for a load. -/
def refreshing : List Act :=
  [ .load 1 0, .load 2 1, .move ⟨0, .reading 1, true⟩, .move ⟨2, .reading 1, true⟩, .move ⟨1, .reading 1, true⟩,
    .move ⟨1, .reading 1, true⟩, .move ⟨2, .reading 1, true⟩ ]

theorem converged_refreshing : Converged Patient (.reading 0) registering refreshing :=
  converged (.reading 0) registering refreshing (by decide +kernel)

end Reading
