/-
The whole app: clients that load, open edit screens on entries of their
lists, submit forms and remove, at any time and without waiting for one
another. Whatever they do, and whichever remote calls fail, what is stored
can be loaded, what is listed can be shown, and the next id can be told
(`loadable_run`).
-/
import Sdapk.System

open Dart Firestore Entity Screen Register Runs System

/-! ## What the clients do -/

/-- The calls in flight, and the records the edit screens of each client were opened on. -/
structure App (R : Type) extends System Nat R where
  opened : Nat → List R

/-- A call in flight proceeds, or a client does something: a call it makes takes a free place. -/
inductive Act
  | move (m : Move Nat)
  | load (call client : Nat)
  | add (call client : Nat) (changes : DynMap) (user : Option String)
  /-- An edit screen is opened on the entry at an index. -/
  | edit (client i : Nat)
  /-- The form of an open screen is submitted, on whatever has become of the entry. -/
  | submit (call client i : Nat) (changes : DynMap) (user : Option String) (now : DateTime)
  | remove (call client : Nat) (id : String)

namespace App

variable {R : Type}

section

variable {s : App R} {call client : Nat} {stage : Stage R}

/-- A call is in flight. -/
def called (s : App R) (call client : Nat) (stage : Stage R) : App R :=
  { s with calls := Function.update s.calls call ⟨client, stage⟩ }

@[simp] theorem called_docs : (s.called call client stage).docs = s.docs := rfl
@[simp] theorem called_lists : (s.called call client stage).lists = s.lists := rfl
@[simp] theorem called_opened : (s.called call client stage).opened = s.opened := rfl

/-- A call is made, where there is a free place for it. -/
def begin (s : App R) (call client : Nat) (stage : Stage R) : App R :=
  if remaining (s.calls call).stage = 0 then { s with calls := Function.update s.calls call ⟨client, stage⟩ } else s

@[simp] theorem begin_opened :
    (s.begin call client stage).opened = s.opened := by
  unfold begin
  split <;> rfl

theorem begin_other {i : Nat} (hi : i ≠ call) : (s.begin call client stage).calls i = s.calls i := by
  unfold begin
  split
  · simp [hi]
  · rfl

@[simp] theorem begin_lists :
    (s.begin call client stage).lists = s.lists := by
  unfold begin
  split <;> rfl

end

variable [Screen R]

/-- Nothing stored, listed, open or in flight. -/
def start (R : Type) (clock : DateTime) : App R :=
  { docs := .empty, lists := fun _ => [], calls := fun _ => ⟨0, .idle⟩, clock, opened := fun _ => [] }

/-- What the screen of a new record calls. -/
def addStage (form : DynMap) (user : Option String) : Stage R :=
  if Accepted R form then
    match nonNull user with
    | .ok user => .add form user
    | .error e => .threw e
  else .idle

/-- What the screen of `r` calls. -/
def editStage (r : R) (form : DynMap) (user : Option String) (now : DateTime) : Stage R :=
  if Accepted R form then updateStage (edited r user now form) else .idle

def step (s : App R) : Act → App R
  | .move m => { s with toSystem := System.step s.toSystem m }
  | .load call client => s.begin call client .load
  | .add call client changes user => s.begin call client (addStage (newForm R changes) user)
  | .edit client i => { s with opened := Function.update s.opened client (s.opened client ++ (s.lists client)[i]?.toList) }
  | .submit call client i changes user now =>
    match (s.opened client)[i]? with
    | some r => s.begin call client (editStage r (editForm r changes) user now)
    | none => s
  | .remove call client id => s.begin call client (.remove id)

/-! ## Submitting on its own -/

section

variable {now : DateTime} {o : Outcome} {w : World R} {r : R} {form : DynMap} {user : Option String}

theorem solo_addStage : (solo now w (addStage form user) [o.query, true, o.write, true]).1 =
    (saveAndValidate (R := R) none user form now o w).1 := by
  rw [saveAndValidate_none, addStage]
  split
  · cases user with
    | none => rfl
    | some user => exact solo_add
  · rfl

theorem solo_editStage : (solo now w (editStage r form user now) [o.write, true]).1 =
    (saveAndValidate (some r) user form now o w).1 := by
  rw [saveAndValidate_some, editStage]
  split
  · cases edited r user now form with
    | error e => rfl
    | ok r' => exact solo_update
  · rfl

end

/-! ## What a step is -/

/-- The calls an act makes, and what a form comes to that is not accepted or cannot be read. -/
inductive Begins (s : App R) : Act → Nat → Nat → Stage R → Prop
  | load {call client : Nat} : Begins s (.load call client) call client .load
  | add {call client : Nat} {changes : DynMap} {user : String} (ha : Accepted R (newForm R changes)) :
      Begins s (.add call client changes (some user)) call client (.add (newForm R changes) user)
  | update {call client i : Nat} {changes : DynMap} {user : Option String} {now : DateTime} {r r' : R}
      (h : (s.opened client)[i]? = some r) (ha : Accepted R (editForm r changes))
      (he : edited r user now (editForm r changes) = .ok r') :
      Begins s (.submit call client i changes user now) call client (.update r')
  | remove {call client : Nat} {id : String} : Begins s (.remove call client id) call client (.remove id)
  | rejected {a : Act} {call client : Nat} : Begins s a call client .idle
  | threw {a : Act} {call client : Nat} {e : Error} : Begins s a call client (.threw e)

/-- **What an act comes to**: a call proceeds, a screen is opened, a call is made, or nothing. -/
inductive Steps (s : App R) : Act → App R → Prop
  | moved {m : Move Nat} : Steps s (.move m) { s with toSystem := System.step s.toSystem m }
  | opened {client i : Nat} : Steps s (.edit client i)
      { s with opened := Function.update s.opened client (s.opened client ++ (s.lists client)[i]?.toList) }
  | begun {a : Act} {call client : Nat} {stage : Stage R} (hm : ∀ m, a ≠ .move m) (h : Begins s a call client stage)
      (hfree : remaining (s.calls call).stage = 0) : Steps s a (s.called call client stage)
  | idle {a : Act} (hm : ∀ m, a ≠ .move m) : Steps s a s

theorem begins_addStage {s : App R} {call client : Nat} {changes : DynMap} {user : Option String} :
    Begins s (.add call client changes user) call client (addStage (newForm R changes) user) := by
  unfold addStage
  split
  · next ha =>
    cases user with
    | some user => exact .add ha
    | none => exact .threw
  · exact .rejected

theorem begins_editStage {s : App R} {call client i : Nat} {changes : DynMap} {user : Option String} {now : DateTime} {r : R}
    (h : (s.opened client)[i]? = some r) :
    Begins s (.submit call client i changes user now) call client (editStage r (editForm r changes) user now) := by
  unfold editStage
  split
  · next ha =>
    cases he : edited r user now (editForm r changes) with
    | ok r' => exact .update h ha he
    | error e => exact .threw
  · exact .rejected

theorem steps_begin {s : App R} {a : Act} {call client : Nat} {stage : Stage R} (hm : ∀ m, a ≠ .move m)
    (h : Begins s a call client stage) : Steps s a (s.begin call client stage) := by
  unfold begin
  split
  · next hfree => exact .begun hm h hfree
  · exact .idle hm

theorem steps (s : App R) (a : Act) : Steps s a (s.step a) := by
  cases a with
  | move m => exact .moved
  | load call client => exact steps_begin nofun .load
  | add call client changes user => exact steps_begin nofun begins_addStage
  | edit client i => exact .opened
  | submit call client i changes user now =>
    simp only [step]
    split
    · next h => exact steps_begin nofun (begins_editStage h)
    · exact .idle nofun
  | remove call client id => exact steps_begin nofun .remove

/-- What an act leaves of a call: it is as it was, has proceeded, or has been made. -/
inductive Becomes (s : App R) (a : Act) (i : Nat) : Call R → Prop
  | kept (hm : ∀ m, a = .move m → i ≠ m.call) : Becomes s a i (s.calls i)
  | moved {m : Move Nat} {x : World R × Stage R} (hm : a = .move m) (hi : i = m.call)
      (h : Advances m.now m.ok (s.seen (s.calls i).client) (s.calls i).stage x) : Becomes s a i ⟨(s.calls i).client, x.2⟩
  | begun {client : Nat} {stage : Stage R} (h : Begins s a i client stage) (hm : ∀ m, a ≠ .move m)
      (hfree : remaining (s.calls i).stage = 0) : Becomes s a i ⟨client, stage⟩

/-- **What becomes of a call.** -/
theorem becomes (s : App R) (a : Act) (i : Nat) : Becomes s a i ((s.step a).calls i) := by
  have hsteps := s.steps a
  generalize s.step a = s' at hsteps ⊢
  cases hsteps with
  | @moved m =>
    by_cases hi : i = m.call
    · subst hi
      simp only [System.step, Function.update_self]
      exact .moved rfl rfl (advances _ _ _ _)
    · rw [calls_other hi]
      exact .kept fun m' hm => by rwa [← Act.move.inj hm]
  | @begun _ call client stage hm hb hfree =>
    by_cases hi : i = call
    · subst hi
      simpa [called] using .begun hb hm hfree
    · simpa [called, hi] using .kept fun m h => absurd h (hm m)
  | opened => exact .kept fun _ h => by cases h
  | idle hm => exact .kept fun m h => absurd h (hm m)

/-! ## What is kept -/

/-- A record with a well-formed id whose card can be built. -/
structure Sound (r : R) : Prop where
  keyed : ∃ n : Int, 0 < n ∧ key r = idOf R n
  shown : Shown texts r

/-- What a call has in hand. -/
def Bears : Stage R → Prop
  | .assign docs => ∀ d ∈ docs, ∃ r : R, d = doc r ∧ Sound r
  | .add form _ => ∃ changes, form = newForm R changes ∧ Accepted R form
  | .stamp form _ uid => (∃ changes, form = newForm R changes ∧ Accepted R form) ∧ ∃ n : Int, 0 < n ∧ uid = idOf R n
  | .write r | .prepend r | .update r | .replace r => Sound r
  | _ => True

def AllSound (docs : Collection) (R : Type) [Screen R] : Prop := ∀ e ∈ docs, ∃ r : R, e = (key r, doc r) ∧ Sound r

structure Inv (s : App R) : Prop where
  docs : AllSound s.docs R
  lists : ∀ c, ∀ r ∈ s.lists c, Sound r
  opened : ∀ c, ∀ r ∈ s.opened c, Sound r
  calls : ∀ i, Bears (s.calls i).stage

theorem inv_start {clock : DateTime} : Inv (start R clock) where
  docs _ he := absurd he SortedMap.not_mem_empty
  lists _ _ hr := by cases hr
  opened _ _ hr := by cases hr
  calls _ := trivial

section

variable {docs : Collection} {r : R} {s : App R} {now : DateTime} {ok : Bool} {w : World R} {stage : Stage R}
  {x : World R × Stage R}

theorem Sound.reloaded (h : Sound r) : Sound (reloaded r) where
  keyed := by rw [key_reloaded]; exact h.keyed
  shown := reloaded_shown h.shown

theorem AllSound.set (h : AllSound docs R) (hr : Sound r) : AllSound (docs.set (key r) (doc r)) R := by
  intro e he
  rcases SortedMap.mem_set.1 he with rfl | ⟨he, -⟩
  · exact ⟨r, rfl, hr⟩
  · exact h e he

theorem AllSound.erase {k : String} (h : AllSound docs R) : AllSound (docs.erase k) R :=
  fun e he => h e (SortedMap.mem_erase.1 he).1

theorem AllSound.wellKept (h : AllSound docs R) : WellKept R docs := by
  have hsaved : Saved R docs := fun e he => by
    obtain ⟨r, rfl, -⟩ := h e he
    exact ⟨r, rfl⟩
  refine hsaved.wellKept fun e he => ?_
  obtain ⟨r, rfl, hr⟩ := h e he
  exact hr.keyed

theorem AllSound.query {n : Nat} (h : AllSound docs R) : ∀ d ∈ query docs "createdAt" n, ∃ r : R, d = doc r ∧ Sound r := by
  intro d hd
  obtain ⟨k, he⟩ := mem_query hd
  obtain ⟨r, hr, hs⟩ := h _ he
  exact ⟨r, (Prod.mk.inj hr).2, hs⟩

theorem AllSound.generateId (h : AllSound docs R) (ok : Bool) :
    (∃ n : Int, 0 < n ∧ Notifier.generateId R { query := ok } docs = .ok (idOf R n)) ∨
      ok = false ∧ Notifier.generateId R { query := ok } docs = .error .firebaseException := by
  cases ok with
  | true => exact .inl (generateId_wellFormed h.wellKept rfl)
  | false => exact .inr ⟨rfl, rfl⟩

/-- Documents of sound records are decoded, to sound records. -/
theorem mapM_sound {docs : List Doc} (h : ∀ d ∈ docs, ∃ r : R, d = doc r ∧ Sound r) :
    ∃ l : List R, docs.mapM fromMap = .ok l ∧ ∀ r ∈ l, Sound r := by
  induction docs with
  | nil => exact ⟨[], rfl, fun _ hr => by cases hr⟩
  | cons d docs ih =>
    obtain ⟨r, rfl, hr⟩ := h _ List.mem_cons_self
    obtain ⟨l, hl, hsound⟩ := ih fun d hd => h d (List.mem_cons_of_mem _ hd)
    refine ⟨Entity.reloaded r :: l, ?_, fun r' hr' => ?_⟩
    · rw [List.mapM_cons, fromMap_doc, hl]
      rfl
    · rcases List.mem_cons.1 hr' with rfl | hr'
      · exact hr.reloaded
      · exact hsound r' hr'

/-! ## One step -/

theorem sound_newRecord {changes : DynMap} {user uid : String} (ha : Accepted R (newForm R changes))
    (hk : ∃ n : Int, 0 < n ∧ uid = idOf R n) :
    ∃ r, (newRecord (newForm R changes) uid user now : Except Error R) = .ok r ∧ Sound r := by
  obtain ⟨r, hr, hshown, -⟩ := @newRecord_ok R _ changes uid user now ha
  have hr : (newRecord (newForm R changes) uid user now : Except Error R) = .ok r := hr
  exact ⟨r, hr, (newRecord_stamped hr).1 ▸ hk, hshown⟩

theorem sound_edited {r' : R} {form : DynMap} {user : Option String} (hr : Sound r) (ha : Accepted R form)
    (h : edited r user now form = .ok r') : Sound r' where
  keyed := by rw [(edited_keeps h).1]; exact hr.keyed
  shown := edited_shown ha h

/-- **A call that proceeds** keeps what is stored and listed sound, and throws
only where its query does not answer. -/
theorem advances_sound (h : Advances now ok w stage x) (hd : AllSound w.docs R) (hl : ∀ r ∈ w.state, Sound r) (hb : Bears stage) :
    (AllSound x.1.docs R ∧ (∀ r ∈ x.1.state, Sound r) ∧ Bears x.2) ∧
      ∀ e, x.2 = .threw e → stage = .threw e ∨ ok = false ∧ e = .firebaseException := by
  cases h with
  | read => exact ⟨⟨hd, hl, hd.query⟩, nofun⟩
  | @assigned docs l h =>
    obtain ⟨l', hl', hsound⟩ := mapM_sound hb
    obtain rfl := Except.ok.inj (h.symm.trans hl')
    exact ⟨⟨hd, hsound, trivial⟩, nofun⟩
  | given h =>
    rcases hd.generateId ok with ⟨n, hn, hg⟩ | ⟨-, hg⟩
    · exact ⟨⟨hd, hl, hb, n, hn, Except.ok.inj (h.symm.trans hg)⟩, nofun⟩
    · cases h.symm.trans hg
  | skipped => exact ⟨⟨hd, hl, trivial⟩, nofun⟩
  | stamped h =>
    obtain ⟨⟨changes, rfl, ha⟩, hk⟩ := hb
    obtain ⟨r, hr, hsound⟩ := sound_newRecord ha hk
    obtain rfl := Except.ok.inj (h.symm.trans hr)
    exact ⟨⟨hd, hl, hsound⟩, nofun⟩
  | wrote | updated =>
    refine ⟨⟨?_, hl, hb⟩, nofun⟩
    simp only [Notifier.upsert]
    split
    · exact hd.set hb
    · exact hd
  | prepended =>
    refine ⟨⟨hd, fun r hr => ?_, trivial⟩, nofun⟩
    rcases List.mem_cons.1 hr with rfl | hr
    · exact hb
    · exact hl r hr
  | @replaced r l h =>
    refine ⟨⟨hd, fun r' hr' => ?_, trivial⟩, nofun⟩
    unfold Notifier.replaced at h
    split at h
    · obtain rfl := Except.ok.inj h
      rcases List.mem_or_eq_of_mem_set hr' with hr' | rfl
      · exact hl r' hr'
      · exact hb
    · cases h
  | unlisted => exact ⟨⟨hd, hl, trivial⟩, nofun⟩
  | removed => exact ⟨⟨hd, fun r hr => hl r (Keyed.mem_without.1 hr).1, trivial⟩, nofun⟩
  | deleted =>
    refine ⟨⟨?_, hl, trivial⟩, nofun⟩
    simp only [Notifier.delete]
    split
    · exact hd.erase
    · exact hd
  | unread hok => exact ⟨⟨hd, hl, trivial⟩, fun e he => .inr ⟨hok, (Stage.threw.inj he).symm⟩⟩
  | undecoded h =>
    obtain ⟨l, hl', -⟩ := mapM_sound hb
    rw [hl'] at h
    cases h
  | ungiven h =>
    rcases hd.generateId ok with ⟨n, -, hg⟩ | ⟨hok, hg⟩
    · cases h.symm.trans hg
    · exact ⟨⟨hd, hl, trivial⟩, fun e he => .inr ⟨hok, (Stage.threw.inj he).symm.trans (Except.error.inj (h.symm.trans hg))⟩⟩
  | unstamped h =>
    obtain ⟨⟨changes, rfl, ha⟩, hk⟩ := hb
    obtain ⟨r, hr, -⟩ := sound_newRecord ha hk
    cases h.symm.trans hr
  | done => exact ⟨⟨hd, hl, hb⟩, fun e he => .inl he⟩

/-- A call that is made has in hand what it needs. -/
theorem bears_begins {a : Act} {call client : Nat} (h : Inv s) (hb : Begins s a call client stage) : Bears stage := by
  cases hb with
  | add ha => exact ⟨_, rfl, ha⟩
  | update hr ha he => exact sound_edited (h.opened _ _ (List.mem_of_getElem? hr)) ha he
  | _ => trivial

theorem bears_step (h : Inv s) (a : Act) (i : Nat) : Bears ((s.step a).calls i).stage := by
  have hc := s.becomes a i
  generalize (s.step a).calls i = c at hc ⊢
  cases hc with
  | kept => exact h.calls i
  | moved _ _ hadv => exact (advances_sound hadv h.docs (h.lists _) (h.calls i)).1.2.2
  | begun hb => exact bears_begins h hb

/-- **One step** of the app. -/
theorem inv_step (h : Inv s) (a : Act) : Inv (s.step a) := by
  have hcalls := bears_step h a
  have hsteps := s.steps a
  generalize s.step a = s' at hsteps hcalls ⊢
  cases hsteps with
  | @moved m =>
    obtain ⟨⟨hdocs, hlist, -⟩, -⟩ := advances_sound (advances m.now m.ok (s.seen (s.calls m.call).client)
      (s.calls m.call).stage) h.docs (h.lists _) (h.calls m.call)
    refine ⟨hdocs, fun c => ?_, h.opened, hcalls⟩
    by_cases hc : c = (s.calls m.call).client
    · simpa [System.step, hc] using hlist
    · simpa [System.step, hc] using h.lists c
  | @opened client i =>
    refine ⟨h.docs, h.lists, fun c r hr => ?_, hcalls⟩
    by_cases hc : c = client
    · subst hc
      simp only [Function.update_self, List.mem_append, Option.mem_toList] at hr
      rcases hr with hr | hr
      · exact h.opened c r hr
      · exact h.lists c r (List.mem_of_getElem? hr)
    · simp only [Function.update_of_ne hc] at hr
      exact h.opened c r hr
  | begun => exact ⟨h.docs, h.lists, h.opened, hcalls⟩
  | idle => exact h

end

/-! ## Every reachable state -/

/-- What is stored can be loaded, what is listed can be shown, and the next id can be told. -/
structure Loadable (s : App R) : Prop where
  keyed : ∀ e ∈ s.docs, ∃ n : Int, 0 < n ∧ e.1 = idOf R n ∧ e.2.get "id" = .str e.1
  decoded : ∀ e ∈ s.docs, ∃ r : R, fromMap e.2 = .ok r
  loads : ∃ l, Notifier.loaded R s.docs = .ok l
  generates : ∃ n : Int, 0 < n ∧ Notifier.generateId R {} s.docs = .ok (idOf R n)
  shows : ∀ c, ∀ r ∈ s.lists c, Shown texts r
  /-- Whichever call proceeds next, it throws only where its query does not answer. -/
  proceeds : ∀ i now ok e, (advance now ok (s.seen (s.calls i).client) (s.calls i).stage).2 = .threw e →
    (s.calls i).stage = .threw e ∨ ok = false ∧ e = .firebaseException

theorem Inv.loadable {s : App R} (h : Inv s) : Loadable s where
  keyed e he := by
    obtain ⟨r, rfl, hr⟩ := h.docs e he
    obtain ⟨n, hn, hk⟩ := hr.keyed
    exact ⟨n, hn, hk, by simp⟩
  decoded e he := by
    obtain ⟨r, rfl, -⟩ := h.docs e he
    exact ⟨reloaded r, fromMap_doc r⟩
  loads := by
    obtain ⟨l, hl, -⟩ := mapM_sound h.docs.query
    exact ⟨l, hl⟩
  generates := generateId_wellFormed h.docs.wellKept rfl
  shows c r hr := (h.lists c r hr).shown
  proceeds i now ok := (advances_sound (advances now ok _ _) h.docs (h.lists _) (h.calls i)).2

/-- **Every document the app stores can be loaded and shown**, and the next id
be told from it: in every state that any number of clients reach from the
empty collection, by any interleaving of the steps of their loads, adds,
edits of entries however old, and removals, remote calls failing or not. -/
theorem loadable_run (clock : DateTime) (acts : List Act) : Loadable (run step (start R clock) acts) := by
  have h : Inv (run step (start R clock) acts) := run_invariant (I := Inv) (fun _ a h => inv_step h a) acts inv_start
  exact h.loadable

end App
