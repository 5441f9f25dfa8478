/-
Who a save is attributed to. A press of the save button asks for the name of
the user who is signed in, and the form is submitted with what comes back:
the user's address where their document is set, and otherwise nothing, which
throws at the patients' screen and is stored at the doctors' (`attributed_iff`).
-/
import Sdapk.Auth
import Sdapk.Codec
import Sdapk.Loadable

namespace Attribution

open Dart Firestore Entity Screen Runs System
open Auth (emailOf getUserName)

/-! ## The two screens -/

inductive Kind
  | patients
  | doctors
  deriving DecidableEq

abbrev Record : Kind → Type
  | .patients => Patient
  | .doctors => Staff

instance : ∀ k : Kind, Screen (Record k)
  | .patients => inferInstanceAs (Screen Patient)
  | .doctors => inferInstanceAs (Screen Staff)

/-- The form a save button is under: of a new record, or of the record of an open screen. -/
inductive Form
  | add (changes : DynMap)
  | edit (i : Nat) (changes : DynMap)

/-- A press of a save button, and who was signed in then. -/
structure Press where
  kind : Kind
  client : Nat
  form : Form
  uid : Option String

/-- The clinic: its accounts, its patients and doctors, the presses still
waiting for a name, and for each call in flight whose it is, which no step looks at. -/
structure Clinic where
  auth : Auth.State
  apps : ∀ k, App (Record k)
  presses : Nat → Option Press
  author : Kind → Nat → Option String

inductive Event
  | auth (e : Auth.Event)
  | press (place client : Nat) (kind : Kind) (form : Form)
  /-- A press is answered, and its form submitted. -/
  | save (place call : Nat) (now : DateTime)
  /-- Whatever else is done in the app. -/
  | act (kind : Kind) (a : Act)

/-- Forms are submitted by presses alone. -/
def Submits : Act → Bool
  | .add _ _ _ _ | .submit _ _ _ _ _ _ => true
  | _ => false

/-- What a press submits, with the name that came back. -/
def Press.act (p : Press) (call : Nat) (now : DateTime) (userName : Option String) : Act :=
  match p.form with
  | .add changes => .add call p.client changes userName
  | .edit i changes => .submit call p.client i changes userName now

/-- The address of the user who pressed. -/
def Press.email (p : Press) (accounts : List Auth.Account) : Option String := p.uid.bind (emailOf accounts)

def step (s : Clinic) : Event → Clinic
  | .auth e => { s with auth := Auth.step s.auth e }
  | .press place client kind form =>
    match s.presses place with
    | none => { s with presses := Function.update s.presses place (some ⟨kind, client, form, s.auth.currentUser client⟩) }
    | some _ => s
  | .save place call now =>
    match s.presses place with
    | none => s
    | some p =>
      if remaining ((s.apps p.kind).calls call).stage = 0 then
        { s with
          apps := Function.update s.apps p.kind ((s.apps p.kind).step (p.act call now (getUserName s.auth.users p.uid)))
          presses := Function.update s.presses place none
          author := Function.update s.author p.kind (Function.update (s.author p.kind) call (p.email s.auth.accounts)) }
      else s
  | .act kind a => if Submits a then s else { s with apps := Function.update s.apps kind ((s.apps kind).step a) }

/-- No account, no press, and any patients and doctors. -/
def start (apps : ∀ k, App (Record k)) : Clinic :=
  { auth := Auth.start, apps, presses := fun _ => none, author := fun _ _ => none }

/-! ## Whose a call is -/

/-- A call that saves in the name of `email`: an add by the one who adds, an update by the one who updates. -/
def Signed {R : Type} [Entity R] (email : String) : Stage R → Prop
  | .add _ user | .stamp _ user _ => user = email
  | .write r => (audit r).createdBy = some email
  | .update r => (audit r).updatedBy = some email
  | _ => True

/-- A call that is to save, and in the name of `email`. -/
def Saves {R : Type} [Entity R] (email : String) (stage : Stage R) : Prop :=
  Signed email stage ∧ match stage with
    | .add _ _ | .update _ => True
    | _ => False

/-- The form of a press is accepted. -/
def Press.Accepted (s : Clinic) (p : Press) : Prop :=
  match p.form with
  | .add changes => Screen.Accepted (Record p.kind) (newForm (Record p.kind) changes)
  | .edit i changes => ∃ r ∈ ((s.apps p.kind).opened p.client)[i]?, Screen.Accepted (Record p.kind) (editForm r changes)

/-- An accepted form that a signed-in user submits. -/
def Submitted (s : Clinic) (place call : Nat) (p : Press) (uid : String) : Prop :=
  s.presses place = some p ∧ p.uid = some uid ∧ remaining ((s.apps p.kind).calls call).stage = 0 ∧ p.Accepted s

/-- A save is the signed-in user's: their name is their address, the call
goes on in it, and what the call writes has it. -/
def Attributed (s : Clinic) : Event → Prop
  | .save place call now => ∀ p uid, Submitted s place call p uid →
    ∃ email, emailOf s.auth.accounts uid = some email ∧ email ≠ "" ∧ getUserName s.auth.users (some uid) = some email ∧
      Saves email (((step s (.save place call now)).apps p.kind).calls call).stage
  | .act kind (.move m) => ∀ email ∈ s.author kind m.call, Signed email ((s.apps kind).calls m.call).stage
  | _ => True

/-- The document of the user is set when their name is asked for. -/
def Ready (s : Clinic) : Event → Prop
  | .save place call _ => ∀ p uid, Submitted s place call p uid → (s.auth.users.get uid).isSome
  | _ => True

/-! ## What is kept -/

/-- The accounts are in order, presses are of accounts, and calls save in the name of whose they are. -/
structure Inv (s : Clinic) : Prop where
  auth : Auth.Inv s.auth
  presses : ∀ i, ∀ p ∈ s.presses i, ∀ uid ∈ p.uid, (emailOf s.auth.accounts uid).isSome
  signed : ∀ k i, ∀ email ∈ s.author k i, Signed email ((s.apps k).calls i).stage

theorem inv_start {apps : ∀ k, App (Record k)} : Inv (start apps) where
  auth := Auth.inv_start
  presses i p hp := by cases hp
  signed k i email he := by cases he

section

variable {R : Type} [Screen R] {now : DateTime} {ok : Bool} {w : World R} {stage : Stage R} {x : World R × Stage R}
  {email : String} {s : App R} {a : Act}

/-- A call goes on in its name. -/
theorem Signed.advance (hs : Signed email stage) (h : Advances now ok w stage x) : Signed email x.2 := by
  cases h with
  | given => exact hs
  | stamped h =>
    obtain ⟨-, -, hcb⟩ := newRecord_stamped h
    have hs : _ = email := hs
    exact hs ▸ hcb
  | done => exact hs
  | _ => trivial

theorem signed_of_done (h : remaining stage = 0) : Signed email stage := by
  cases stage <;> trivial

/-- Nothing but a press begins a call that saves. -/
theorem signed_step (ha : Submits a = false) {i : Nat} (hs : Signed email (s.calls i).stage) :
    Signed email ((s.step a).calls i).stage := by
  have hc := s.becomes a i
  generalize (s.step a).calls i = c at hc ⊢
  cases hc with
  | kept => exact hs
  | moved _ _ hadv => exact hs.advance hadv
  | begun hb =>
    cases hb with
    | add | update => cases ha
    | _ => trivial

/-- An accepted form with a name begins an add in it. -/
theorem saves_add {call client : Nat} {changes : DynMap} (hfree : remaining (s.calls call).stage = 0)
    (ha : Accepted R (newForm R changes)) : Saves email ((s.step (.add call client changes (some email))).calls call).stage := by
  have hstage : App.addStage (newForm R changes) (some email) = (.add (newForm R changes) email : Stage R) := if_pos ha
  simp [App.step, App.begin, hfree, hstage, Saves, Signed]

/-- An accepted form with a name begins an update in it. -/
theorem saves_edit {call client i : Nat} {changes : DynMap} {r : R} (hfree : remaining (s.calls call).stage = 0)
    (hr : (s.opened client)[i]? = some r) (ha : Accepted R (editForm r changes)) :
    Saves email ((s.step (.submit call client i changes (some email) now)).calls call).stage := by
  obtain ⟨r', hr', haudit⟩ := @edited_ok R _ r changes email now ha
  have hr' : edited r (some email) now (editForm r changes) = .ok r' := hr'
  have hstage : App.editStage r (editForm r changes) (some email) now = .update r' := by
    rw [App.editStage, if_pos ha, hr']
    rfl
  simp [App.step, App.begin, hr, hfree, hstage, Saves, Signed, haudit]

/-- A press begins its own call alone. -/
theorem calls_act {p : Press} {call i : Nat} {userName : Option String} (hi : i ≠ call) :
    (s.step (p.act call now userName)).calls i = s.calls i := by
  obtain ⟨kind, client, form, uid⟩ := p
  cases form with
  | add changes => exact App.begin_other hi
  | edit j changes =>
    simp only [Press.act, App.step]
    split
    · exact App.begin_other hi
    · rfl

end

/-! ## One step -/

variable {s : Clinic} {e : Event}

theorem save_apps {place call : Nat} {now : DateTime} {p : Press} (hp : s.presses place = some p)
    (hfree : remaining ((s.apps p.kind).calls call).stage = 0) : (step s (.save place call now)).apps p.kind =
      (s.apps p.kind).step (p.act call now (getUserName s.auth.users p.uid)) := by
  simp [step, hp, hfree]

/-- A save with a name is made in it. -/
theorem saves_of_name {place call : Nat} {now : DateTime} {p : Press} {uid email : String} (h : Submitted s place call p uid)
    (hn : getUserName s.auth.users (some uid) = some email) :
    Saves email (((step s (.save place call now)).apps p.kind).calls call).stage := by
  obtain ⟨hp, hu, hfree, ha⟩ := h
  rw [save_apps hp hfree, hu, hn]
  obtain ⟨kind, client, form, uid'⟩ := p
  cases form with
  | add changes => exact saves_add hfree ha
  | edit i changes =>
    obtain ⟨r, hr, ha⟩ := ha
    exact saves_edit hfree hr ha

/-- A form that is not accepted begins nothing. -/
theorem signed_of_not_accepted {call : Nat} {now : DateTime} {p : Press} {email : String} {userName : Option String}
    (hfree : remaining ((s.apps p.kind).calls call).stage = 0) (ha : ¬ p.Accepted s) :
    Signed email (((s.apps p.kind).step (p.act call now userName)).calls call).stage := by
  obtain ⟨kind, client, form, uid⟩ := p
  cases form with
  | add changes =>
    have hstage : App.addStage (newForm (Record kind) changes) userName = (.idle : Stage (Record kind)) := if_neg ha
    simp [Press.act, App.step, App.begin, hfree, hstage, Signed]
  | edit i changes =>
    cases hr : ((s.apps kind).opened client)[i]? with
    | none =>
      simp only [Press.act, App.step, hr]
      exact signed_of_done hfree
    | some r =>
      have hstage : App.editStage r (editForm r changes) userName now = .idle := if_neg fun h => ha ⟨r, hr, h⟩
      simp [Press.act, App.step, App.begin, hr, hfree, hstage, Signed]

/-- **A save is the signed-in user's exactly where their document is set.** -/
theorem attributed_iff_ready (hi : Inv s) : Attributed s e ↔ Ready s e := by
  cases e with
  | save place call now =>
    refine forall_congr' fun p => forall_congr' fun uid => imp_congr_right fun h => ?_
    obtain ⟨email, he⟩ := Option.isSome_iff_exists.1 (hi.presses place p h.1 uid h.2.1)
    rw [← Auth.getUserName_iff hi.auth he]
    constructor
    · rintro ⟨email', he', -, hn, -⟩
      obtain rfl := Option.some.inj (he.symm.trans he')
      exact hn
    · intro hn
      exact ⟨email, he, hi.auth.ne_empty he, hn, saves_of_name h hn⟩
  | act kind a =>
    cases a with
    | move m => exact iff_of_true (hi.signed kind m.call) trivial
    | _ => exact Iff.rfl
  | _ => exact Iff.rfl

/-- What a press submits goes on in the name of who pressed. -/
theorem signed_of_ready {place call : Nat} {now : DateTime} {p : Press} {email : String} (hi : Inv s)
    (hr : Ready s (.save place call now)) (hp : s.presses place = some p)
    (hfree : remaining ((s.apps p.kind).calls call).stage = 0) (he : p.email s.auth.accounts = some email) :
    Signed email (((s.apps p.kind).step (p.act call now (getUserName s.auth.users p.uid))).calls call).stage := by
  obtain ⟨uid, hu, hemail⟩ := Option.bind_eq_some_iff.1 he
  by_cases ha : p.Accepted s
  · have hsub : Submitted s place call p uid := ⟨hp, hu, hfree, ha⟩
    have hn := (Auth.getUserName_iff hi.auth hemail).2 (hr p uid hsub)
    have hsaves : Saves email (((step s (.save place call now)).apps p.kind).calls call).stage := saves_of_name hsub hn
    rw [save_apps hp hfree] at hsaves
    exact hsaves.1
  · exact signed_of_not_accepted hfree ha

theorem inv_step (hi : Inv s) (hr : Ready s e) : Inv (step s e) := by
  cases e with
  | auth e =>
    have hs := Auth.steps s.auth e
    exact ⟨hi.auth.step hs, fun i p hp uid hu => hs.emailOf_isSome (hi.presses i p hp uid hu), hi.signed⟩
  | press place client kind form =>
    simp only [step]
    split
    · refine ⟨hi.auth, fun i p hp uid hu => ?_, hi.signed⟩
      rcases Auth.mem_update hp with hp | hp
      · obtain rfl := Option.some.inj hp
        exact hi.auth.currentUser client uid hu
      · exact hi.presses i p hp uid hu
    · exact hi
  | save place call now =>
    simp only [step]
    split
    · exact hi
    · next p hp =>
      split
      · next hfree =>
        refine ⟨hi.auth, fun i q hq uid hu => ?_, fun k i email he => ?_⟩
        · rcases Auth.mem_update hq with hq | hq
          · cases hq
          · exact hi.presses i q hq uid hu
        · by_cases hk : k = p.kind
          · subst hk
            simp only [Function.update_self] at he ⊢
            by_cases hic : i = call
            · subst hic
              rw [Function.update_self] at he
              exact signed_of_ready hi hr hp hfree he
            · rw [Function.update_of_ne hic] at he
              rw [calls_act hic]
              exact hi.signed _ i email he
          · simp only [Function.update_of_ne hk] at he ⊢
            exact hi.signed k i email he
      · exact hi
  | act kind a =>
    simp only [step]
    split
    · exact hi
    · next ha =>
      refine ⟨hi.auth, hi.presses, fun k i email he => ?_⟩
      by_cases hk : k = kind
      · subst hk
        simp only [Function.update_self]
        exact signed_step (by simpa using ha) (hi.signed k i email he)
      · simp only [Function.update_of_ne hk]
        exact hi.signed k i email he

/-! ## Whole runs -/

/-- **Every save is attributed to the user who made it exactly as long as the
document of the user is set by the time their name is asked for**: of patients
and doctors, in every run of sign-ups, sign-ins, sign-outs and saves, whichever
remote writes fail, and whatever else happens in the app. -/
theorem attributed_iff (apps : ∀ k, App (Record k)) (es : List Event) :
    Along step Attributed (start apps) es ↔ Along step Ready (start apps) es := by
  have hevery : Along step (fun _ _ => True) (start apps) es := Along.of_forall fun _ _ => trivial
  exact along_iff (I := Inv) (fun _ _ hi _ => attributed_iff_ready hi) (fun _ _ hi _ hr => inv_step hi hr) inv_start hevery

/-- A doctor stored, listed and open, and no patient. -/
def oneDoctor : ∀ k, App (Record k)
  | .patients => App.start Patient (.reading 0)
  | .doctors =>
    { docs := SortedMap.empty.set "D-1" (doc Codec.registeredDoctor)
      lists := fun _ => [Codec.registeredDoctor]
      calls := fun _ => ⟨0, .idle⟩
      clock := .reading 0
      opened := fun _ => [Codec.registeredDoctor] }

/-- An account is made and signed in, and a form submitted before the document of the user is set. -/
def early (kind : Kind) (form : Form) : List Event :=
  [ .auth (.signUp 0 0 "u@v.in" "User" "secret" "u"), .press 0 0 kind form, .save 0 0 (.reading 1) ]

/-- The address and the education of the open doctor, changed. -/
def doctorForm : Form := .edit 0 [("address", .str "B"), ("education", .str "F")]

theorem not_attributed_early {kind : Kind} {form : Form}
    (ha : Press.Accepted (run step (start oneDoctor) ((early kind form).take 2)) ⟨kind, 0, form, some "u"⟩) :
    ¬ Along step Attributed (start oneDoctor) (early kind form) := by
  intro h
  have hfree : ∀ k, remaining ((oneDoctor k).calls 0).stage = 0 := fun k => by cases k <;> rfl
  obtain ⟨email, -, -, hn, -⟩ := h.2.2.1 ⟨kind, 0, form, some "u"⟩ "u" ⟨rfl, rfl, hfree kind, ha⟩
  cases hn

/-- **A save can be without its user**: a new patient's throws, and an edited doctor is stored as updated by nobody. -/
theorem unattributed :
    (((run step (start oneDoctor) (early .patients (.add AddPatientScreen.filledIn))).apps .patients).calls 0).stage =
        .threw .typeError ∧
      ((run step (start oneDoctor) (early .doctors doctorForm ++ [.act .doctors (.move { call := 0, now := .reading 2 })])).apps
        .doctors).docs.get "D-1" = some (doc { Codec.registeredDoctor with
          address := "B", education := "F", role := "1", updatedAt := some (.reading 1), updatedBy := some "" }) ∧
      ¬ Along step Attributed (start oneDoctor) (early .patients (.add AddPatientScreen.filledIn)) ∧
      ¬ Along step Attributed (start oneDoctor) (early .doctors doctorForm) := by
  refine ⟨by decide +kernel, by decide +kernel, not_attributed_early ?_, not_attributed_early ?_⟩
  · show Screen.Accepted Patient (newForm Patient AddPatientScreen.filledIn)
    decide +kernel
  · refine ⟨Codec.registeredDoctor, rfl, ?_⟩
    show Screen.Accepted Staff (editForm Codec.registeredDoctor [("address", .str "B"), ("education", .str "F")])
    decide +kernel

end Attribution
