/-
Accounts, and the documents the app keeps of their users. A sign-up makes the
account, which signs it in, and then sets `users/<uid>`; where that has not
gone through, the account has no document, and `getUserName` no name for it
(`getUserName_iff`).
-/
import Mathlib.Logic.Function.Basic
import Sdapk.Firestore

namespace Auth

open Dart Firestore

/-- An account of the authentication service. -/
structure Account where
  uid : String
  email : String
  password : String

/-- A sign-up whose account is made, and whose document is not set yet. -/
structure SignUp where
  uid : String
  username : String
  email : String

/-- The accounts, the `users` collection, who is signed in at each client, and the sign-ups in flight. -/
structure State where
  accounts : List Account
  users : Collection
  currentUser : Nat → Option String
  signUps : Nat → Option SignUp

inductive Event
  /-- A form is submitted to sign up; the service gives the account a uid. -/
  | signUp (place client : Nat) (email username password uid : String)
  /-- `set` of the document of a sign-up in flight. -/
  | setUser (place : Nat) (ok : Bool)
  | signIn (client : Nat) (email password : String)
  | signOut (client : Nat)

/-! ## The form -/

def validEmail (value : String) : Bool := trim value ≠ "" ∧ '@' ∈ value.toList

def validUsername (value : String) : Bool := trim value ≠ "" ∧ 4 ≤ codeUnits (trim value)

def validPassword (value : String) : Bool := 6 ≤ codeUnits (trim value)

/-! ## Steps -/

/-- The document of a user. -/
def userDoc (u : SignUp) : Doc :=
  document [("username", .str u.username), ("email", .str u.email), ("role", .str "user")]

/-- The e-mail address of an account. -/
def emailOf (accounts : List Account) (uid : String) : Option String := (accounts.find? (·.uid = uid)).map (·.email)

def step (s : State) : Event → State
  | .signUp place client email username password uid =>
    if validEmail email ∧ validUsername username ∧ validPassword password ∧ s.currentUser client = none ∧
        (s.signUps place).isNone ∧ ∀ a ∈ s.accounts, a.uid ≠ uid ∧ a.email ≠ email then
      { s with
        accounts := ⟨uid, email, password⟩ :: s.accounts
        currentUser := Function.update s.currentUser client (some uid)
        signUps := Function.update s.signUps place (some ⟨uid, username, email⟩) }
    else s
  | .setUser place ok =>
    match s.signUps place with
    | some u =>
      { s with
        users := if ok then s.users.set u.uid (userDoc u) else s.users
        signUps := Function.update s.signUps place none }
    | none => s
  | .signIn client email password =>
    match s.accounts.find? fun a => a.email = email ∧ a.password = password with
    | some a =>
      if s.currentUser client = none then { s with currentUser := Function.update s.currentUser client (some a.uid) } else s
    | none => s
  | .signOut client => { s with currentUser := Function.update s.currentUser client none }

/-- Nobody has an account. -/
def start : State := { accounts := [], users := .empty, currentUser := fun _ => none, signUps := fun _ => none }

/-- `getUserName`, of the uid that was signed in when it was called. What is no text is caught and comes to nothing. -/
def getUserName (users : Collection) (uid : Option String) : Option String :=
  match uid with
  | none => none
  | some uid =>
    match users.get uid with
    | some userDoc =>
      match (userDoc.get "email").asStringOrNull with
      | .ok email => email
      | .error _ => none
    | none => none

/-! ## What a step is -/

/-- **What an event comes to**: an account is made, a sign-up ends, somebody signs in or out, or nothing. -/
inductive Steps (s : State) : State → Prop
  | made {place client : Nat} {email username password uid : String} (hv : validEmail email)
      (hnew : ∀ a ∈ s.accounts, a.uid ≠ uid ∧ a.email ≠ email) : Steps s
      { s with
        accounts := ⟨uid, email, password⟩ :: s.accounts
        currentUser := Function.update s.currentUser client (some uid)
        signUps := Function.update s.signUps place (some ⟨uid, username, email⟩) }
  | set {place : Nat} {u : SignUp} (ok : Bool) (hu : s.signUps place = some u) : Steps s
      { s with
        users := if ok then s.users.set u.uid (userDoc u) else s.users
        signUps := Function.update s.signUps place none }
  | signedIn {client : Nat} {uid : String} (hu : (emailOf s.accounts uid).isSome) :
      Steps s { s with currentUser := Function.update s.currentUser client (some uid) }
  | signedOut {client : Nat} : Steps s { s with currentUser := Function.update s.currentUser client none }
  | idle : Steps s s

theorem emailOf_isSome {accounts : List Account} {a : Account} (ha : a ∈ accounts) : (emailOf accounts a.uid).isSome := by
  rw [emailOf, Option.isSome_map, List.find?_isSome]
  exact ⟨a, ha, by simp⟩

theorem steps (s : State) (e : Event) : Steps s (step s e) := by
  cases e with
  | signUp place client email username password uid =>
    simp only [step]
    split
    · next h => exact .made h.1 h.2.2.2.2.2
    · exact .idle
  | setUser place ok =>
    simp only [step]
    split
    · next hu => exact .set ok hu
    · exact .idle
  | signIn client email password =>
    simp only [step]
    split
    · next h =>
      split
      · exact .signedIn (emailOf_isSome (List.mem_of_find?_eq_some h))
      · exact .idle
    · exact .idle
  | signOut client => exact .signedOut

/-! ## What is kept -/

/-- Accounts have addresses, and the documents and the sign-ups in flight are of accounts and have their addresses. -/
structure Inv (s : State) : Prop where
  emails : ∀ a ∈ s.accounts, a.email ≠ ""
  users : ∀ e ∈ s.users, ∃ email, emailOf s.accounts e.1 = some email ∧ e.2.get "email" = .str email
  signUps : ∀ i, ∀ u ∈ s.signUps i, emailOf s.accounts u.uid = some u.email
  currentUser : ∀ c, ∀ uid ∈ s.currentUser c, (emailOf s.accounts uid).isSome

theorem inv_start : Inv start where
  emails a ha := by cases ha
  users e he := by cases he
  signUps i u hu := by cases hu
  currentUser c uid hu := by cases hu

variable {s s' : State} {uid email : String}

theorem Inv.ne_empty (h : Inv s) (he : emailOf s.accounts uid = some email) : email ≠ "" := by
  obtain ⟨a, ha, rfl⟩ := Option.map_eq_some_iff.1 he
  exact h.emails a (List.mem_of_find?_eq_some ha)

/-- An account keeps its address. -/
theorem Steps.emailOf (h : Steps s s') (he : emailOf s.accounts uid = some email) : emailOf s'.accounts uid = some email := by
  cases h with
  | @made _ _ _ _ _ uid' _ hnew =>
    obtain ⟨a, ha, rfl⟩ := Option.map_eq_some_iff.1 he
    have huid : a.uid = uid := by simpa using List.find?_some ha
    have hne : uid' ≠ uid := fun heq => (hnew a (List.mem_of_find?_eq_some ha)).1 (huid.trans heq.symm)
    simp [Auth.emailOf, hne, ha]
  | _ => exact he

theorem Steps.emailOf_isSome (h : Steps s s') (hs : (Auth.emailOf s.accounts uid).isSome) :
    (Auth.emailOf s'.accounts uid).isSome := by
  obtain ⟨email, he⟩ := Option.isSome_iff_exists.1 hs
  exact Option.isSome_iff_exists.2 ⟨email, h.emailOf he⟩

theorem mem_update {α : Type} {f : Nat → Option α} {i k : Nat} {o : Option α} {x : α} (h : x ∈ Function.update f k o i) :
    x ∈ o ∨ x ∈ f i := by
  by_cases hi : i = k
  · subst hi
    exact .inl (by simpa using h)
  · exact .inr (by simpa [hi] using h)

theorem Inv.step (h : Inv s) (hs : Steps s s') : Inv s' := by
  have hkeep : ∀ {uid email}, Auth.emailOf s.accounts uid = some email → Auth.emailOf s'.accounts uid = some email := hs.emailOf
  have husers : ∀ e ∈ s.users, ∃ email, Auth.emailOf s'.accounts e.1 = some email ∧ e.2.get "email" = .str email := by
    intro e he
    obtain ⟨email, hemail, hget⟩ := h.users e he
    exact ⟨email, hkeep hemail, hget⟩
  have hups : ∀ i, ∀ u ∈ s.signUps i, Auth.emailOf s'.accounts u.uid = some u.email := fun i u hu => hkeep (h.signUps i u hu)
  have hcurrent : ∀ c, ∀ uid ∈ s.currentUser c, (Auth.emailOf s'.accounts uid).isSome :=
    fun c uid hu => hs.emailOf_isSome (h.currentUser c uid hu)
  cases hs with
  | @made place client email username password uid hv hnew =>
    refine ⟨fun a ha => ?_, husers, fun i u hu => ?_, fun c uid' hu => ?_⟩
    · rcases List.mem_cons.1 ha with rfl | ha
      · rintro rfl
        exact absurd hv (by decide)
      · exact h.emails a ha
    · rcases mem_update hu with hu | hu
      · obtain rfl := Option.some.inj hu
        simp [Auth.emailOf]
      · exact hups i u hu
    · rcases mem_update hu with hu | hu
      · obtain rfl := Option.some.inj hu
        simp [Auth.emailOf]
      · exact hcurrent c uid' hu
  | @set place u ok hu =>
    refine ⟨h.emails, fun e he => ?_, fun i u' hu' => ?_, hcurrent⟩
    · cases ok with
      | false => exact husers e he
      | true =>
        rcases SortedMap.mem_set.1 he with rfl | ⟨he, -⟩
        · exact ⟨u.email, hups place u hu, rfl⟩
        · exact husers e he
    · rcases mem_update hu' with hu' | hu'
      · cases hu'
      · exact hups i u' hu'
  | @signedIn client uid hu =>
    refine ⟨h.emails, husers, hups, fun c uid' hu' => ?_⟩
    rcases mem_update hu' with hu' | hu'
    · exact Option.some.inj hu' ▸ hu
    · exact hcurrent c uid' hu'
  | @signedOut client =>
    refine ⟨h.emails, husers, hups, fun c uid' hu' => ?_⟩
    rcases mem_update hu' with hu' | hu'
    · cases hu'
    · exact hcurrent c uid' hu'
  | idle => exact h

/-- **A signed-in user has a name exactly where the document is set**, and then it is the account's address. -/
theorem getUserName_iff (h : Inv s) (he : emailOf s.accounts uid = some email) :
    getUserName s.users (some uid) = some email ↔ (s.users.get uid).isSome := by
  cases hd : s.users.get uid with
  | none => simp [getUserName, hd]
  | some d =>
    obtain ⟨email', he', hemail⟩ := h.users _ (SortedMap.get_eq_some.1 hd)
    obtain rfl := Option.some.inj (he.symm.trans he')
    simp only at hemail
    simp [getUserName, hd, hemail, Dyn.asStringOrNull]

end Auth
