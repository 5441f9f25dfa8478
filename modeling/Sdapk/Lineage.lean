/-
Where records come from. Whatever clients do, and in whatever order their
calls proceed, a record that is stored, listed, open or in flight goes back
to one add, by edits and reloads alone (`descends_run`): nothing is made up,
and nothing is put together of two records. Each of these is tied to the
acts that did it: the add to the id that its own query was answered with, an
edit to the record its screen was open on, a reload to the collection it
read. The trail of audit fields is read off so (`trail_run`).
-/
import Sdapk.Everywhere

namespace Lineage

open Dart Firestore Entity Screen Runs Everywhere
open App (Begins start)
open System (Advances advances remaining)

/-! ## What the acts have done -/

section

variable (R : Type) [Screen R] (clock : DateTime)

/-- The app after the acts, from nothing. -/
abbrev after (acts : List Act) : App R := run App.step (start R clock) acts

/-- The acts do not let the call proceed. -/
def Waits (call : Nat) (acts : List Act) : Prop := ∀ m, .move m ∈ acts → call ≠ m.call

/-- An add of an accepted form was called, at a free place, and has not proceeded yet. -/
def Called (acts : List Act) (call client : Nat) (changes : DynMap) (user : String) : Prop :=
  ∃ pre post, acts = pre ++ .add call client changes (some user) :: post ∧
    remaining ((after R clock pre).calls call).stage = 0 ∧ Accepted R (newForm R changes) ∧ Waits call post

/-- It has proceeded once: the documents that were stored then gave it its id. -/
def Given (acts : List Act) (call client : Nat) (changes : DynMap) (user uid : String) : Prop :=
  ∃ pre m post, acts = pre ++ .move m :: post ∧ m.call = call ∧ Called R clock pre call client changes user ∧
    Notifier.generateId R { query := m.ok } (after R clock pre).docs = .ok uid ∧ Waits call post

variable {R}

/-- It has proceeded again, at `t`, and made a record of its form, its id, its user and the time. -/
def Made (acts : List Act) (call client : Nat) (changes : DynMap) (user : String) (t : DateTime) (r : R) : Prop :=
  ∃ pre m post uid, acts = pre ++ .move m :: post ∧ m.call = call ∧ m.now = t ∧ Given R clock pre call client changes user uid ∧
    newRecord (newForm R changes) uid user t = .ok r

/-- A screen of the client was open on `r`, and its form was accepted and made `r'` of it, in a call at a free place. -/
def Edited (acts : List Act) (call client i : Nat) (changes : DynMap) (user : Option String) (t : DateTime) (r r' : R) : Prop :=
  ∃ pre post, acts = pre ++ .submit call client i changes user t :: post ∧
    remaining ((after R clock pre).calls call).stage = 0 ∧ ((after R clock pre).opened client)[i]? = some r ∧
    Accepted R (editForm r changes) ∧ edited r user t (editForm r changes) = .ok r'

variable (R)

/-- A load has read the documents that were stored then, and has not proceeded since. -/
def Read (acts : List Act) (call : Nat) (docs : List Doc) : Prop :=
  ∃ pre m post, acts = pre ++ .move m :: post ∧ m.call = call ∧ ((after R clock pre).calls call).stage = .load ∧
    docs = query (after R clock pre).docs "createdAt" 25 ∧ Waits call post

variable {R}

/-- A record the acts account for: one an add made, one that was open and has been edited, or one that was stored and
has been read and listed. -/
inductive Descends : List Act → R → Prop
  | added {acts : List Act} {call client : Nat} {changes : DynMap} {user : String} {t : DateTime} {r : R}
      (h : Made clock acts call client changes user t r) : Descends acts r
  | edited {pre post : List Act} {call client i : Nat} {changes : DynMap} {user : Option String} {t : DateTime} {r r' : R}
      (hfree : remaining ((after R clock pre).calls call).stage = 0) (hopen : ((after R clock pre).opened client)[i]? = some r)
      (h : Descends pre r) (ha : Accepted R (editForm r changes)) (he : edited r user t (editForm r changes) = .ok r') :
      Descends (pre ++ .submit call client i changes user t :: post) r'
  | reloaded {pre post : List Act} {m : Move Nat} {docs : List Doc} {r : R} (hr : Read R clock pre m.call docs)
      (hd : doc r ∈ docs) (h : Descends pre r) : Descends (pre ++ .move m :: post) (reloaded r)

end

variable {R : Type} [Screen R] {clock : DateTime} {acts acts' : List Act} {a : Act} {call client : Nat} {changes : DynMap}
  {user uid : String}

/-! ## As acts go on -/

theorem Waits.nil : Waits call [] := nofun

theorem Waits.append (h : Waits call acts) (ha : ∀ m, a = .move m → call ≠ m.call) : Waits call (acts ++ [a]) := by
  intro m hm
  rcases List.mem_append.1 hm with hm | hm
  · exact h m hm
  · exact ha m (List.mem_singleton.1 hm).symm

theorem Called.append (h : Called R clock acts call client changes user) (ha : ∀ m, a = .move m → call ≠ m.call) :
    Called R clock (acts ++ [a]) call client changes user := by
  obtain ⟨pre, post, rfl, hfree, hacc, hw⟩ := h
  exact ⟨pre, post ++ [a], by simp, hfree, hacc, hw.append ha⟩

theorem Given.append (h : Given R clock acts call client changes user uid) (ha : ∀ m, a = .move m → call ≠ m.call) :
    Given R clock (acts ++ [a]) call client changes user uid := by
  obtain ⟨pre, m, post, rfl, hm, hc, hg, hw⟩ := h
  exact ⟨pre, m, post ++ [a], by simp, hm, hc, hg, hw.append ha⟩

theorem Read.append {docs : List Doc} (h : Read R clock acts call docs) (ha : ∀ m, a = .move m → call ≠ m.call) :
    Read R clock (acts ++ [a]) call docs := by
  obtain ⟨pre, m, post, rfl, hm, hs, hd, hw⟩ := h
  exact ⟨pre, m, post ++ [a], by simp, hm, hs, hd, hw.append ha⟩

theorem Made.append {t : DateTime} {r : R} (h : Made clock acts call client changes user t r) :
    Made clock (acts ++ acts') call client changes user t r := by
  obtain ⟨pre, m, post, uid, rfl, hm, ht, hg, hr⟩ := h
  exact ⟨pre, m, post ++ acts', uid, by simp, hm, ht, hg, hr⟩

theorem Edited.append {i : Nat} {name : Option String} {t : DateTime} {r r' : R}
    (h : Edited clock acts call client i changes name t r r') : Edited clock (acts ++ acts') call client i changes name t r r' := by
  obtain ⟨pre, post, rfl, hfree, hopen, ha, he⟩ := h
  exact ⟨pre, post ++ acts', by simp, hfree, hopen, ha, he⟩

theorem Descends.append {r : R} (h : Descends clock acts r) : Descends clock (acts ++ acts') r := by
  cases h with
  | added h => exact .added h.append
  | edited hfree hopen h ha he =>
    rw [List.append_assoc, List.cons_append]
    exact .edited hfree hopen h ha he
  | reloaded hr hd h =>
    rw [List.append_assoc, List.cons_append]
    exact .reloaded hr hd h

/-! ## What a call has in hand -/

/-- Where what a call has in hand is from: the form and the id of an add, and the documents of a load. -/
def Origin (clock : DateTime) (acts : List Act) (call : Nat) : Stage R → Prop
  | .assign docs => Read R clock acts call docs
  | .add form user => ∃ client changes, form = newForm R changes ∧ Called R clock acts call client changes user
  | .stamp form user uid => ∃ client changes, form = newForm R changes ∧ Given R clock acts call client changes user uid
  | _ => True

theorem Origin.append {stage : Stage R} (h : Origin clock acts call stage) (ha : ∀ m, a = .move m → call ≠ m.call) :
    Origin clock (acts ++ [a]) call stage := by
  cases stage with
  | assign docs => exact Read.append h ha
  | add form user =>
    obtain ⟨client, changes, hform, hc⟩ := h
    exact ⟨client, changes, hform, hc.append ha⟩
  | stamp form user uid =>
    obtain ⟨client, changes, hform, hg⟩ := h
    exact ⟨client, changes, hform, hg.append ha⟩
  | _ => trivial

/-- **A call that proceeds** has its hands on what is stored, or on what it was given. -/
theorem Origin.advances {m : Move Nat} {w : World R} {stage : Stage R} {x : World R × Stage R}
    (h : Origin clock acts m.call stage) (hs : ((after R clock acts).calls m.call).stage = stage)
    (hw : w.docs = (after R clock acts).docs) (hadv : Advances m.now m.ok w stage x) :
    Origin clock (acts ++ [.move m]) m.call x.2 := by
  cases hadv with
  | read => exact ⟨acts, m, [], rfl, rfl, hs, by rw [hw], .nil⟩
  | given hg =>
    obtain ⟨client, changes, hform, hc⟩ := h
    exact ⟨client, changes, hform, acts, m, [], rfl, rfl, hc, hw ▸ hg, .nil⟩
  | done hdone => cases stage <;> trivial
  | _ => trivial

/-- A call that is made. -/
theorem Origin.begins {stage : Stage R} (hb : Begins (after R clock acts) a call client stage)
    (hfree : remaining ((after R clock acts).calls call).stage = 0) : Origin clock (acts ++ [a]) call stage := by
  cases hb with
  | @add _ _ changes user ha => exact ⟨client, changes, rfl, acts, [], rfl, hfree, ha, .nil⟩
  | _ => trivial

/-! ## Along a run -/

/-- Records the acts account for. -/
def accounted (clock : DateTime) (acts : List Act) (R : Type) [Screen R] : Property R where
  record := Descends clock acts
  form _ _ := True
  id _ := True

structure Accounted (clock : DateTime) (acts : List Act) (s : App R) : Prop where
  reached : s = after R clock acts
  holds : Holds (accounted clock acts R) s
  origin : ∀ i, Origin clock acts i (s.calls i).stage

theorem accounted_start : Accounted clock [] (start R clock) where
  reached := rfl
  holds := holds_start
  origin _ := trivial

/-- An act accounts for what it makes. -/
theorem Accounted.supplies {s : App R} (h : Accounted clock acts s) (a : Act) :
    Supplies s a (accounted clock acts R) (accounted clock (acts ++ [a]) R) where
  implies := ⟨fun _ => Descends.append, fun _ _ => id, fun _ => id⟩
  reloaded m docs r ha hs hd hr := by
    subst ha
    have hread : Read R clock acts m.call docs := by
      have ho := h.origin m.call
      rwa [hs] at ho
    exact .reloaded hread hd hr
  filled _ _ _ _ _ _ := trivial
  given _ _ _ _ _ _ _ := trivial
  stamped m form user uid r ha hs _ _ hr := by
    subst ha
    have ho := h.origin m.call
    rw [hs] at ho
    obtain ⟨client, changes, rfl, hg⟩ := ho
    exact .added ⟨acts, m, [], uid, rfl, rfl, rfl, hg, hr⟩
  edited call client i changes user now r r' ha hfree hopen hr hacc he := by
    subst ha
    obtain rfl := h.reached
    exact .edited hfree hopen hr hacc he

/-- **One step** is accounted for. -/
theorem Accounted.step (acts : List Act) (s : App R) (a : Act) (h : Accounted clock acts s) :
    Accounted clock (acts ++ [a]) (s.step a) where
  reached := by
    rw [h.reached, after, after, run_append]
    rfl
  holds := h.holds.step (h.supplies a)
  origin i := by
    have hc := s.becomes a i
    have ho := h.origin i
    obtain rfl := h.reached
    generalize ((after R clock acts).step a).calls i = c at hc ⊢
    cases hc with
    | kept hm => exact ho.append hm
    | moved hm hi hadv =>
      subst hm hi
      exact ho.advances rfl rfl hadv
    | begun hb _ hfree => exact .begins hb hfree

theorem accounted_run (clock : DateTime) (acts : List Act) : Accounted clock acts (after R clock acts) :=
  run_past (J := fun acts s => Accounted clock acts s) Accounted.step acts accounted_start

/-- **Every record goes back to an add**: the stored ones under their own ids, the listed ones, and those of open
screens, in every run of any number of clients from the empty collection. -/
theorem descends_run (clock : DateTime) (acts : List Act) :
    (∀ e ∈ (run App.step (start R clock) acts).docs, ∃ r : R, e = (key r, doc r) ∧ Descends clock acts r) ∧
      (∀ c, ∀ r ∈ (run App.step (start R clock) acts).lists c, Descends clock acts r) ∧
      ∀ c, ∀ r ∈ (run App.step (start R clock) acts).opened c, Descends clock acts r :=
  have h := (accounted_run clock acts).holds
  ⟨h.docs, h.lists, h.opened⟩

/-! ## The trail of audit fields -/

/-- A screen whose edits say when and by whom they were made. -/
class Stamped (R : Type) extends Screen R where
  edited_stamped {r user now form r'} : edited r user now form = .ok r' →
    (audit r').updatedAt = some now ∧ (audit r').updatedBy = some (user.getD "")

instance : Stamped Patient where
  edited_stamped h := by
    obtain ⟨userName, q, dob, rfl, -, rfl⟩ := AddPatientScreen.edited_ok h
    exact ⟨rfl, rfl⟩

instance : Stamped Staff where
  edited_stamped h := by
    obtain ⟨-, -, -, hua, hub⟩ := AddDoctorScreen.reads_editData (Staff.fromMap_eq_ok.1 h)
    exact ⟨hua, hub⟩

variable {S : Type} [Stamped S]

/-- Who made a record, who changed it last, and when, as far as that is not lost: a reload loses the dates. -/
structure Trail (clock : DateTime) (acts : List Act) (S : Type) [Screen S] (id : String) (a : Audit) : Prop where
  made : ∃ call client changes user t, ∃ r : S, Made clock acts call client changes user t r ∧ key r = id ∧
    a.createdBy = some user ∧ (a.createdAt = none ∨ a.createdAt = some t)
  changed : (a.updatedBy = some "" ∧ a.updatedAt = none) ∨
    ∃ call client i changes name t, ∃ r r' : S, Edited clock acts call client i changes name t r r' ∧ key r = id ∧
      a.updatedBy = some (name.getD "") ∧ (a.updatedAt = none ∨ a.updatedAt = some t)

theorem Trail.append {id : String} {a : Audit} (h : Trail clock acts S id a) : Trail clock (acts ++ acts') S id a where
  made := by
    obtain ⟨call, client, changes, user, t, r, hm, hrest⟩ := h.made
    exact ⟨call, client, changes, user, t, r, hm.append, hrest⟩
  changed := by
    rcases h.changed with hn | ⟨call, client, i, changes, name, t, r, r', he, hrest⟩
    · exact .inl hn
    · exact .inr ⟨call, client, i, changes, name, t, r, r', he.append, hrest⟩

theorem Trail.reloaded {id : String} {a : Audit} (h : Trail clock acts S id a) : Trail clock acts S id a.reloaded where
  made := by
    obtain ⟨call, client, changes, user, t, r, hm, hk, hcb, -⟩ := h.made
    exact ⟨call, client, changes, user, t, r, hm, hk, by simp [Audit.reloaded, hcb], .inl rfl⟩
  changed := by
    rcases h.changed with ⟨hub, -⟩ | ⟨call, client, i, changes, name, t, r, r', he, hk, hub, -⟩
    · exact .inl ⟨by simp [Audit.reloaded, hub], rfl⟩
    · exact .inr ⟨call, client, i, changes, name, t, r, r', he, hk, by simp [Audit.reloaded, hub], .inl rfl⟩

/-- The trail of a new record is its add's. -/
theorem Made.trail {t : DateTime} {r : S} (h : Made clock acts call client changes user t r) :
    Trail clock acts S (key r) (audit r) := by
  obtain ⟨pre, m, post, uid, hacts, hm, rfl, hg, hr⟩ := h
  obtain ⟨pre', m', post', rfl, hm', ⟨pre₀, post₀, rfl, hfree, hacc, hw₀⟩, hgen, hw⟩ := hg
  obtain ⟨r', hr', -, haudit⟩ := @newRecord_ok S _ changes uid user m.now hacc
  obtain rfl := Except.ok.inj (hr.symm.trans hr')
  have hmade : Made clock acts call client changes user m.now r :=
    ⟨_, m, post, uid, hacts, hm, rfl, ⟨_, m', post', rfl, hm', ⟨pre₀, post₀, rfl, hfree, hacc, hw₀⟩, hgen, hw⟩, hr⟩
  exact ⟨⟨call, client, changes, user, m.now, r, hmade, rfl, by rw [haudit], .inr (by rw [haudit])⟩,
    .inl (by rw [haudit]; exact ⟨rfl, rfl⟩)⟩

/-- **The trail of a record**, along how it came about. -/
theorem Descends.trail {r : S} (h : Descends clock acts r) : Trail clock acts S (key r) (audit r) := by
  induction h with
  | added h => exact h.trail
  | @edited pre post call client i changes user now r r' hfree hopen _ ha he ih =>
    obtain ⟨hk, hca, hcb⟩ := edited_keeps he
    obtain ⟨hua, hub⟩ := Stamped.edited_stamped he
    obtain ⟨call₀, client₀, changes₀, name, t, r₀, hm, hk₀, hby, hat⟩ := ih.made
    have hedit : Edited clock (pre ++ .submit call client i changes user now :: post) call client i changes user now r r' :=
      ⟨pre, post, rfl, hfree, hopen, ha, he⟩
    rw [hk]
    exact ⟨⟨call₀, client₀, changes₀, name, t, r₀, hm.append, hk₀, by rw [hcb, hby]; rfl, by rwa [hca]⟩,
      .inr ⟨call, client, i, changes, user, now, r, r', hedit, rfl, hub, .inr hua⟩⟩
  | reloaded _ _ _ ih =>
    rw [key_reloaded, audit_reloaded]
    exact ih.reloaded.append

/-- What a document says of who made its record and who changed it last, and when: an add that made a record under its
id, and an edit of a record with that id. -/
structure Documented (clock : DateTime) (acts : List Act) (S : Type) [Screen S] (e : String × Doc) : Prop where
  made : ∃ call client changes user t, ∃ r : S, Made clock acts call client changes user t r ∧ key r = e.1 ∧
    e.2.get "createdBy" = .str user ∧ (e.2.get "createdAt" = .null ∨ e.2.get "createdAt" = stored (.dateTime t))
  changed : (e.2.get "updatedBy" = .str "" ∧ e.2.get "updatedAt" = .null) ∨
    ∃ call client i changes name t, ∃ r r' : S, Edited clock acts call client i changes name t r r' ∧ key r = e.1 ∧
      e.2.get "updatedBy" = .str (name.getD "") ∧
      (e.2.get "updatedAt" = .null ∨ e.2.get "updatedAt" = stored (.dateTime t))

theorem Trail.documented {r : S} (h : Trail clock acts S (key r) (audit r)) : Documented clock acts S (key r, doc r) where
  made := by
    obtain ⟨call, client, changes, user, t, r₀, hm, hk, hcb, hca⟩ := h.made
    refine ⟨call, client, changes, user, t, r₀, hm, hk, by simp [hcb], ?_⟩
    rcases hca with hca | hca
    · exact .inl (by simp [hca])
    · exact .inr (by simp [hca])
  changed := by
    rcases h.changed with ⟨hub, hua⟩ | ⟨call, client, i, changes, name, t, r₀, r', he, hk, hub, hua⟩
    · exact .inl ⟨by simp [hub], by simp [hua]⟩
    · refine .inr ⟨call, client, i, changes, name, t, r₀, r', he, hk, by simp [hub], ?_⟩
      rcases hua with hua | hua
      · exact .inl (by simp [hua])
      · exact .inr (by simp [hua])

theorem Accounted.documented {s : App S} (h : Accounted clock acts s) : ∀ e ∈ s.docs, Documented clock acts S e := by
  intro e he
  obtain ⟨r, rfl, hr⟩ := h.holds.docs e he
  exact Trail.documented hr.trail

/-- **No document changes hands.** A stored document has the name of the user whose add made a record under its id,
and that add's date or none; it was last changed in nobody's name, or in the name an edit of a record with its id was
submitted with, at that form's date or at none. In every run of any number of clients, whichever remote calls fail. -/
theorem trail_run (clock : DateTime) (acts : List Act) :
    ∀ e ∈ (run App.step (start S clock) acts).docs, Documented clock acts S e :=
  (accounted_run clock acts).documented

/-- A patient is registered by one user, and edited by another. -/
def handedOn : List Act :=
  [ .add 0 0 AddPatientScreen.filledIn "U", .move ⟨0, .reading 1, true⟩, .move ⟨0, .reading 1, true⟩,
    .move ⟨0, .reading 1, true⟩, .move ⟨0, .reading 1, true⟩, .edit 0 0, .submit 0 0 0 [] "V" (.reading 2),
    .move ⟨0, .reading 2, true⟩ ]

theorem trail_handedOn : Documented (.reading 0) handedOn Patient ("P-1",
    doc { AddPatientScreen.registered "P-1" (.reading 1) with updatedAt := some (.reading 2), updatedBy := "V" }) :=
  trail_run (.reading 0) handedOn _ (SortedMap.get_eq_some.1 (by decide +kernel))

end Lineage
