/-
Whose names stand in the documents. The clinic's patients and doctors are
each an app, whose forms are submitted by presses alone: a run of the clinic
is a run of each app by the acts that it does there (`apps_run`), and every
name in these is the address of a user who was signed in where the save
button was pressed. A save can be left without its user
(`Attribution.unattributed`); it is never another's (`signed_run`).
-/
import Sdapk.Attribution
import Sdapk.Lineage

namespace Signatures

open Dart Firestore Entity Screen Runs Lineage
open Attribution (Clinic Press Form Kind Record Submits)
open System (remaining)
open Auth (emailOf getUserName)

/-- No account, no patient, no doctor. -/
def empty (clock : DateTime) : Clinic := Attribution.start fun k => App.start (Record k) clock

/-! ## What is done in an app -/

/-- The act an event does in an app: the form of a press that is answered, or whatever else is done in it. -/
def done (k : Kind) (s : Clinic) : Attribution.Event → Option Act
  | .save place call now =>
    match s.presses place with
    | some p =>
      if p.kind = k ∧ remaining ((s.apps p.kind).calls call).stage = 0 then
        some (p.act call now (getUserName s.auth.users p.uid))
      else none
    | none => none
  | .act kind a => if kind = k ∧ Submits a = false then some a else none
  | _ => none

/-- What the events do in an app. -/
def acts (clock : DateTime) (es : List Attribution.Event) (k : Kind) : List Act :=
  emitted Attribution.step (done k) (empty clock) es

section

variable {clock : DateTime} {es es' : List Attribution.Event} {s s' : Clinic} {k : Kind} {e : Attribution.Event} {a : Act}

theorem step_apps : (Attribution.step s e).apps k = (done k s e).toList.foldl App.step (s.apps k) := by
  cases e with
  | auth e => rfl
  | press place client kind form =>
    simp only [Attribution.step]
    split <;> rfl
  | save place call now =>
    cases hp : s.presses place with
    | none => simp [Attribution.step, done, hp]
    | some p =>
      by_cases hfree : remaining ((s.apps p.kind).calls call).stage = 0
      · by_cases hk : p.kind = k
        · subst hk
          simp [Attribution.step, done, hp, hfree]
        · simp [Attribution.step, done, hp, hfree, hk, Function.update_of_ne (Ne.symm hk)]
      · simp [Attribution.step, done, hp, hfree]
  | act kind a =>
    by_cases ha : Submits a = true
    · simp [Attribution.step, done, ha]
    · by_cases hk : kind = k
      · subst hk
        simp [Attribution.step, done, ha]
      · simp [Attribution.step, done, ha, hk, Function.update_of_ne (Ne.symm hk)]

/-- **An app in the clinic** is what becomes of it by what is done in it. -/
theorem apps_run (clock : DateTime) (es : List Attribution.Event) (k : Kind) :
    (run Attribution.step (empty clock) es).apps k = after (Record k) clock (acts clock es k) :=
  have hevery : Along Attribution.step (fun _ _ => True) (empty clock) es := Along.of_forall fun _ _ => trivial
  Along.simulates (I := fun _ => True) (V := fun s : Clinic => s.apps k) (fun _ _ _ _ => ⟨step_apps, trivial⟩) trivial hevery

theorem acts_append : acts clock (es ++ [e]) k = acts clock es k ++ (done k (run Attribution.step (empty clock) es) e).toList := by
  rw [acts, emitted_append, emitted, emitted, List.append_nil]
  rfl

/-! ## Who pressed -/

/-- A save button was pressed at a client where this account was signed in. -/
def PressedBy (clock : DateTime) (es : List Attribution.Event) (place client : Nat) (kind : Kind) (form : Form) (uid : String) :
    Prop :=
  ∃ pre post, es = pre ++ .press place client kind form :: post ∧
    (run Attribution.step (empty clock) pre).auth.currentUser client = some uid

/-- The press was answered, and its form submitted in this call. -/
def SavedBy (clock : DateTime) (es : List Attribution.Event) (call client : Nat) (kind : Kind) (form : Form) (uid : String) : Prop :=
  ∃ pre place now post, es = pre ++ .save place call now :: post ∧
    (run Attribution.step (empty clock) pre).presses place = some ⟨kind, client, form, some uid⟩ ∧
    PressedBy clock pre place client kind form uid

/-- The same, of the account with this address. -/
def Saved (clock : DateTime) (es : List Attribution.Event) (s : Clinic) (call client : Nat) (kind : Kind) (form : Form)
    (email : String) : Prop :=
  ∃ uid, SavedBy clock es call client kind form uid ∧ emailOf s.auth.accounts uid = some email

/-- An act that gives a name gives that of the user whose press it submits. -/
def Named (clock : DateTime) (es : List Attribution.Event) (s : Clinic) (kind : Kind) : Act → Prop
  | .add call client changes (some user) => Saved clock es s call client kind (.add changes) user
  | .submit call client i changes (some user) _ => Saved clock es s call client kind (.edit i changes) user
  | _ => True

structure Inv (clock : DateTime) (es : List Attribution.Event) (s : Clinic) : Prop where
  reached : s = run Attribution.step (empty clock) es
  auth : Auth.Inv s.auth
  presses : ∀ i, ∀ p ∈ s.presses i, ∀ uid ∈ p.uid, PressedBy clock es i p.client p.kind p.form uid
  named : ∀ k, ∀ a ∈ acts clock es k, Named clock es s k a

theorem inv_empty : Inv clock [] (empty clock) where
  reached := rfl
  auth := Auth.inv_start
  presses i p hp := by cases hp
  named k a ha := by cases ha

theorem PressedBy.append {place client : Nat} {form : Form} {uid : String} (h : PressedBy clock es place client k form uid) :
    PressedBy clock (es ++ es') place client k form uid := by
  obtain ⟨pre, post, rfl, hu⟩ := h
  exact ⟨pre, post ++ es', by simp, hu⟩

/-- Accounts keep their addresses, whatever happens. -/
theorem emailOf_step {uid email : String} (h : emailOf s.auth.accounts uid = some email) :
    emailOf (Attribution.step s e).auth.accounts uid = some email := by
  cases e with
  | auth e => exact (Auth.steps s.auth e).emailOf h
  | press | act =>
    simp only [Attribution.step]
    split <;> exact h
  | save =>
    simp only [Attribution.step]
    split
    · exact h
    · split <;> exact h

theorem Saved.step {call client : Nat} {form : Form} {email : String} (h : Saved clock es s call client k form email) :
    Saved clock (es ++ [e]) (Attribution.step s e) call client k form email := by
  obtain ⟨uid, ⟨pre, place, now, post, rfl, hp, hpress⟩, he⟩ := h
  exact ⟨uid, ⟨pre, place, now, post ++ [e], by simp, hp, hpress⟩, emailOf_step he⟩

theorem Named.step (h : Named clock es s k a) : Named clock (es ++ [e]) (Attribution.step s e) k a := by
  cases a with
  | add call client changes user =>
    cases user with
    | some user => exact Saved.step h
    | none => trivial
  | submit call client i changes user now =>
    cases user with
    | some user => exact Saved.step h
    | none => trivial
  | _ => trivial

/-- A name that comes back is the address of the account that was asked for. -/
theorem emailOf_getUserName {uid : Option String} {name : String} (h : Auth.Inv s.auth)
    (hn : getUserName s.auth.users uid = some name) : ∃ u, uid = some u ∧ emailOf s.auth.accounts u = some name := by
  cases uid with
  | none => cases hn
  | some u =>
    refine ⟨u, rfl, ?_⟩
    cases hd : s.auth.users.get u with
    | none => simp [getUserName, hd] at hn
    | some d =>
      obtain ⟨email, he, hget⟩ := h.users _ (SortedMap.get_eq_some.1 hd)
      simp only at hget
      simp only [getUserName, hd, hget, Dyn.asStringOrNull, Option.some.injEq] at hn
      exact hn ▸ he

/-- What a press submits is named so. -/
theorem Inv.named_act {p : Press} {place call : Nat} {now : DateTime} (h : Inv clock es s) (hp : s.presses place = some p) :
    Named clock (es ++ [.save place call now]) (Attribution.step s (.save place call now)) p.kind
      (p.act call now (getUserName s.auth.users p.uid)) := by
  have hpress := h.presses place p hp
  obtain rfl := h.reached
  obtain ⟨kind, client, form, uid⟩ := p
  cases hn : getUserName _ uid with
  | none => cases form <;> trivial
  | some name =>
    obtain ⟨u, rfl, he⟩ := emailOf_getUserName h.auth hn
    have hsaved : SavedBy clock (es ++ [.save place call now]) call client kind form u :=
      ⟨es, place, now, [], rfl, hp, hpress u rfl⟩
    cases form <;> exact ⟨u, hsaved, emailOf_step he⟩

/-- What an event does in an app is named so: whatever is not submitted gives no name. -/
theorem Inv.named_done (h : Inv clock es s) (ha : done k s e = some a) : Named clock (es ++ [e]) (Attribution.step s e) k a := by
  cases e with
  | save place call now =>
    cases hp : s.presses place with
    | none => simp [done, hp] at ha
    | some p =>
      simp only [done, hp, Option.ite_none_right_eq_some] at ha
      obtain ⟨⟨rfl, -⟩, ha⟩ := ha
      obtain rfl := Option.some.inj ha
      exact h.named_act hp
  | act kind b =>
    simp only [done, Option.ite_none_right_eq_some] at ha
    obtain ⟨⟨rfl, hb⟩, ha⟩ := ha
    obtain rfl := Option.some.inj ha
    cases b with
    | add | submit => cases hb
    | _ => trivial
  | _ => cases ha

theorem step_auth : (∃ e', e = .auth e' ∧ (Attribution.step s e).auth = Auth.step s.auth e') ∨ (Attribution.step s e).auth = s.auth := by
  cases e with
  | auth e => exact .inl ⟨e, rfl, rfl⟩
  | press | act =>
    simp only [Attribution.step]
    split <;> exact .inr rfl
  | save =>
    simp only [Attribution.step]
    split
    · exact .inr rfl
    · split <;> exact .inr rfl

/-- A press that waits was waiting before, or is made now, of whoever is signed in. -/
theorem step_presses {i : Nat} {p : Press} (hp : (Attribution.step s e).presses i = some p) :
    s.presses i = some p ∨ e = .press i p.client p.kind p.form ∧ p.uid = s.auth.currentUser p.client := by
  cases e with
  | auth e => exact .inl hp
  | act =>
    simp only [Attribution.step] at hp
    split at hp <;> exact .inl hp
  | press place client kind form =>
    simp only [Attribution.step] at hp
    split at hp
    · by_cases hi : i = place
      · subst hi
        simp only [Function.update_self, Option.some.injEq] at hp
        subst hp
        exact .inr ⟨rfl, rfl⟩
      · simp only [Function.update_of_ne hi] at hp
        exact .inl hp
    · exact .inl hp
  | save place call now =>
    simp only [Attribution.step] at hp
    split at hp
    · exact .inl hp
    · split at hp
      · rcases Auth.mem_update hp with hp | hp
        · cases hp
        · exact .inl hp
      · exact .inl hp

/-- **One step** of the clinic. -/
theorem inv_step (es : List Attribution.Event) (s : Clinic) (e : Attribution.Event) (h : Inv clock es s) :
    Inv clock (es ++ [e]) (Attribution.step s e) where
  reached := by
    rw [run_append, ← h.reached]
    rfl
  auth := by
    rcases step_auth (s := s) (e := e) with ⟨e', -, he⟩ | he
    · exact he ▸ h.auth.step (Auth.steps s.auth e')
    · exact he ▸ h.auth
  presses i p hp uid hu := by
    rcases step_presses hp with hp | ⟨rfl, huid⟩
    · exact (h.presses i p hp uid hu).append
    · obtain rfl := h.reached
      exact ⟨es, [], rfl, huid.symm.trans hu⟩
  named k a ha := by
    rw [acts_append, ← h.reached] at ha
    rcases List.mem_append.1 ha with ha | ha
    · exact (h.named k a ha).step
    · exact h.named_done (Option.mem_toList.1 ha)

end

/-! ## Whole runs -/

/-- Who a document says made and last changed its record: the user whose press was saved in the call of the add that
made a record under its id, and nobody or the user whose press was saved in the call of an edit of one with that id. -/
structure Signed (clock : DateTime) (es : List Attribution.Event) (k : Kind) (e : String × Doc) : Prop where
  made : ∃ call client changes user t, ∃ r : Record k, Made clock (acts clock es k) call client changes user t r ∧ key r = e.1 ∧
    Saved clock es (run Attribution.step (empty clock) es) call client k (.add changes) user ∧
    e.2.get "createdBy" = .str user
  changed : e.2.get "updatedBy" = .str "" ∨
    ∃ call client i changes user t, ∃ r r' : Record k,
      Edited clock (acts clock es k) call client i changes (some user) t r r' ∧ key r = e.1 ∧
      Saved clock es (run Attribution.step (empty clock) es) call client k (.edit i changes) user ∧
      e.2.get "updatedBy" = .str user

/-- The add of a record that was made is among the acts. -/
theorem mem_of_made {R : Type} [Screen R] {clock : DateTime} {as : List Act} {call client : Nat} {changes : DynMap} {user : String}
    {t : DateTime} {r : R} (h : Made clock as call client changes user t r) : .add call client changes (some user) ∈ as := by
  obtain ⟨pre, m, post, uid, rfl, -, -, ⟨pre₁, m₁, post₁, rfl, -, ⟨pre₀, post₀, rfl, -⟩, -⟩, -⟩ := h
  simp

theorem mem_of_edited {R : Type} [Screen R] {clock : DateTime} {as : List Act} {call client i : Nat} {changes : DynMap}
    {name : Option String} {t : DateTime} {r r' : R} (h : Edited clock as call client i changes name t r r') :
    .submit call client i changes name t ∈ as := by
  obtain ⟨pre, post, rfl, -⟩ := h
  simp

/-- A document that is accounted for by acts whose names are so given. -/
theorem signed_of_documented {clock : DateTime} {es : List Attribution.Event} {k : Kind} {e : String × Doc}
    (hnamed : ∀ a ∈ acts clock es k, Named clock es (run Attribution.step (empty clock) es) k a)
    (h : Documented clock (acts clock es k) (Record k) e) : Signed clock es k e where
  made := by
    obtain ⟨call, client, changes, user, t, r, hm, hk, hcb, -⟩ := h.made
    exact ⟨call, client, changes, user, t, r, hm, hk, hnamed _ (mem_of_made hm), hcb⟩
  changed := by
    rcases h.changed with ⟨hub, -⟩ | ⟨call, client, i, changes, name, t, r, r', he, hk, hub, -⟩
    · exact .inl hub
    · cases name with
      | none => exact .inl hub
      | some name => exact .inr ⟨call, client, i, changes, name, t, r, r', he, hk, hnamed _ (mem_of_edited he), hub⟩

/-- **No document has the name of anyone but who pressed the button**: of patients and of doctors, in every run of
sign-ups, sign-ins, sign-outs and saves, whichever remote calls fail, and whatever else happens in the app. It is the
address of the user who was signed in, at the client of the form, when it was pressed; an edit can be nobody's. -/
theorem signed_run (clock : DateTime) (es : List Attribution.Event) (k : Kind) :
    ∀ e ∈ ((run Attribution.step (empty clock) es).apps k).docs, Signed clock es k e := by
  intro e he
  have h : Inv clock es (run Attribution.step (empty clock) es) := run_past (J := Inv clock) inv_step es inv_empty
  rw [apps_run] at he
  refine signed_of_documented (h.named k) ?_
  cases k with
  | patients => exact trail_run (S := Patient) clock _ e he
  | doctors => exact trail_run (S := Staff) clock _ e he

/-- An account is made, its document set, and a patient registered. -/
def registering : List Attribution.Event :=
  [ .auth (.signUp 0 0 "u@v.in" "User" "secret" "u"), .auth (.setUser 0 true),
    .press 0 0 .patients (.add AddPatientScreen.filledIn), .save 0 0 (.reading 1),
    .act .patients (.move ⟨0, .reading 1, true⟩), .act .patients (.move ⟨0, .reading 1, true⟩),
    .act .patients (.move ⟨0, .reading 1, true⟩) ]

theorem signed_registering : Signed (.reading 0) registering .patients
    ("P-1", doc { AddPatientScreen.registered "P-1" (.reading 1) with createdBy := "u@v.in" }) :=
  signed_run (.reading 0) registering .patients _ (SortedMap.get_eq_some.1 (by decide +kernel))

end Signatures
