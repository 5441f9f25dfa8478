/-
The list of a session. It belongs to the process and not to the session: a
sign-out leaves it as it is, and the next user sees it until a load of their
own assigns another. From there on the list is the session's, and shows
nothing of what earlier ones left in it, as long as no call of theirs touches
it (`own_of_load`).

The process is client `0` among the clients of the collection.
-/
import Sdapk.Codec
import Sdapk.Loadable

namespace Sessions

open Dart Firestore Entity Screen Runs System

variable {R : Type}

/-! ## One process -/

/-- The process: who made what when stands beside it, and no step looks at it. -/
structure Process (R : Type) extends App R where
  signedIn : Bool
  /-- How often somebody has signed in. -/
  session : Nat
  /-- The session each call was made in. -/
  madeIn : Nat → Nat
  /-- The list, each entry with the session it comes from. -/
  shown : List (R × Nat)
  map_shown : shown.map (·.1) = lists 0

inductive Event
  | signIn
  | signOut
  | act (a : Act)

/-- The client that makes a call, or opens a screen. -/
def doer : Act → Option Nat
  | .move _ => none
  | .load _ client | .add _ client _ _ | .edit client _ | .submit _ client _ _ _ _ | .remove _ client _ => some client

/-- The place of the call that is made. -/
def place : Act → Option Nat
  | .move _ | .edit _ _ => none
  | .load call _ | .add call _ _ _ | .submit call _ _ _ _ _ | .remove call _ _ => some call

/-- A call that is to put something into the list. -/
def Enters : Stage R → Bool
  | .assign _ | .prepend _ | .replace _ => true
  | _ => false

theorem remaining_of_enters {stage : Stage R} (h : Enters stage) : remaining stage ≠ 0 := by
  cases stage <;> first | exact Nat.one_ne_zero | cases h

/-! ## Two processes -/

/-- Two calls that do the same from now on: equal, or done, or calls of an
earlier session that are to put something into the list, be it the same or not. -/
def AlikeCalls (session madeIn : Nat) (c c' : Call R) : Prop :=
  c = c' ∨ remaining c.stage = 0 ∧ remaining c'.stage = 0 ∨
    c.client = 0 ∧ c'.client = 0 ∧ Enters c.stage ∧ Enters c'.stage ∧ madeIn < session

theorem AlikeCalls.free {n k : Nat} {c c' : Call R} (h : AlikeCalls n k c c') :
    remaining c.stage = 0 ↔ remaining c'.stage = 0 := by
  rcases h with rfl | ⟨hd, hd'⟩ | ⟨-, -, hent, hent', -⟩
  · exact Iff.rfl
  · exact iff_of_true hd hd'
  · exact iff_of_false (remaining_of_enters hent) (remaining_of_enters hent')

/-- Two systems that agree in all but the list of client `0`, and what calls of earlier sessions are still to put into it. -/
structure AlikeSystems (session : Nat) (madeIn : Nat → Nat) (t t' : System Nat R) : Prop where
  docs : t.docs = t'.docs
  lists : ∀ c, c ≠ 0 → t.lists c = t'.lists c
  calls : ∀ i, AlikeCalls session (madeIn i) (t.calls i) (t'.calls i)
  clock : t.clock = t'.clock

/-- Two states that agree in all but what earlier sessions have left in the list, or are still to put into it. -/
structure Alike (s s' : Process R) : Prop where
  systems : AlikeSystems s.session s.madeIn s.toSystem s'.toSystem
  opened : s.opened = s'.opened
  signedIn : s.signedIn = s'.signedIn
  session : s.session = s'.session
  madeIn : s.madeIn = s'.madeIn

/-- No screen is opened on an entry of the list. -/
def Unopened : Event → Prop
  | .act (.edit client _) => client ≠ 0
  | _ => True

section

variable {t t' : System Nat R} {n : Nat} {made : Nat → Nat}

/-- A free place is of no session. -/
theorem AlikeSystems.free {call : Nat} (h : AlikeSystems n made t t') : AlikeSystems n
    (if remaining (t.calls call).stage = 0 then Function.update made call n else made) t t' := by
  split
  · next hfree =>
    refine ⟨h.docs, h.lists, fun i => ?_, h.clock⟩
    by_cases hi : i = call
    · subst hi
      exact .inr (.inl ⟨hfree, (h.calls i).free.1 hfree⟩)
    · simpa [hi] using h.calls i
  · exact h

/-- A call made in systems that agree. -/
theorem AlikeSystems.begin {a a' : App R} {call client : Nat} {stage : Stage R} (h : AlikeSystems n made a.toSystem a'.toSystem) :
    AlikeSystems n (if remaining (a.calls call).stage = 0 then Function.update made call n else made)
      (a.begin call client stage).toSystem (a'.begin call client stage).toSystem := by
  unfold App.begin
  by_cases hfree : remaining (a.calls call).stage = 0
  · rw [if_pos hfree, if_pos hfree, if_pos ((h.calls call).free.1 hfree)]
    refine ⟨h.docs, h.lists, fun i => ?_, h.clock⟩
    by_cases hi : i = call
    · exact .inl (by simp [hi])
    · simpa [hi] using h.calls i
  · rw [if_neg hfree, if_neg hfree, if_neg fun hf => hfree ((h.calls call).free.2 hf)]
    exact h

end

/-! ## Steps -/

/-- Replacing an entry by `r`, with the earlier of its session and `n`, is replacing its record. -/
theorem map_modify {n i : Nat} {r : R} {shown : List (R × Nat)} (hi : i < (shown.map (·.1)).length) :
    (shown.modify i fun e => (r, min n e.2)).map (·.1) = (shown.map (·.1)).set i r := by
  refine List.ext_getElem? fun j => ?_
  rw [List.length_map] at hi
  by_cases hij : i = j
  · subst hij
    simp [hi]
  · simp [hij]

variable [Screen R]

/-- What a call of session `n` makes of the list: an entry that is replaced
comes from the earlier of its session and `n`. -/
def relist (n : Nat) (shown : List (R × Nat)) : Stage R → List (R × Nat)
  | .assign docs =>
    match docs.mapM fromMap with
    | .ok state => state.map fun r => (r, n)
    | .error _ => shown
  | .prepend r => (r, n) :: shown
  | .replace r =>
    match (shown.map (·.1)).findIdx? fun r' => key r' = key r with
    | some i => shown.modify i fun e => (r, min n e.2)
    | none => shown
  | .remove id => shown.filter fun e => key e.1 ≠ id
  | _ => shown

/-- The records are those of the list. -/
theorem map_relist {n : Nat} {shown : List (R × Nat)} {now : DateTime} {ok : Bool} {docs : Collection} {stage : Stage R} :
    (relist n shown stage).map (·.1) = (advance now ok ⟨docs, shown.map (·.1)⟩ stage).1.state := by
  cases stage with
  | load => cases ok <;> rfl
  | assign docs' =>
    simp only [relist, advance]
    cases docs'.mapM (fromMap (R := R)) with
    | ok state => simp [Function.comp_def]
    | error e => rfl
  | add form user =>
    simp only [relist, advance]
    split <;> rfl
  | stamp form user uid =>
    simp only [relist, advance]
    split
    · rfl
    · split <;> rfl
  | replace r =>
    simp only [relist, advance, Notifier.replaced]
    cases hi : (shown.map (·.1)).findIdx? fun r' => key r' = key r with
    | some i =>
      obtain ⟨hlt, -⟩ := List.findIdx?_eq_some_iff_findIdx_eq.1 hi
      exact map_modify hlt
    | none => rfl
  | remove id => simp [relist, advance, Keyed.without, List.filter_map, Function.comp_def]
  | _ => rfl

/-- The list after an act. -/
def shownAfter (s : Process R) : Act → List (R × Nat)
  | .move m => if (s.calls m.call).client = 0 then relist (s.madeIn m.call) s.shown (s.calls m.call).stage else s.shown
  | _ => s.shown

theorem map_shownAfter {s : Process R} {a : Act} : (shownAfter s a).map (·.1) = (s.toApp.step a).lists 0 := by
  have hsteps := s.steps a
  generalize s.toApp.step a = s' at hsteps ⊢
  cases hsteps with
  | @moved m =>
    by_cases hc : (s.calls m.call).client = 0
    · have hlists : s.shown.map (·.1) = s.lists 0 := s.map_shown
      have hrelist := @map_relist R _ (s.madeIn m.call) s.shown m.now m.ok s.docs (s.calls m.call).stage
      simp only [shownAfter, if_pos hc, hrelist, hlists]
      simp [System.step, hc, seen]
    · have hne : 0 ≠ (s.calls m.call).client := Ne.symm hc
      simp only [shownAfter, if_neg hc, System.step, Function.update_of_ne hne]
      exact s.map_shown
  | opened => exact s.map_shown
  | begun hm | idle hm =>
    cases a with
    | move m => exact absurd rfl (hm m)
    | _ => exact s.map_shown

/-- Who is not signed in does nothing, and a call made takes a free place. -/
def step (s : Process R) : Event → Process R
  | .signIn => if s.signedIn then s else { s with signedIn := true, session := s.session + 1 }
  | .signOut => { s with opened := Function.update s.opened 0 [], signedIn := false }
  | .act a =>
    if doer a = some 0 ∧ s.signedIn = false then s else
    { toApp := s.toApp.step a
      signedIn := s.signedIn
      session := s.session
      madeIn := match place a with
        | some i => if remaining (s.calls i).stage = 0 then Function.update s.madeIn i s.session else s.madeIn
        | none => s.madeIn
      shown := shownAfter s a
      map_shown := map_shownAfter }

/-! ## What is shown of a session -/

/-- Every entry comes from this session. -/
def Own (s : Process R) : Prop := ∀ e ∈ s.shown, e.2 = s.session

/-- Nobody signs in, and no call of an earlier session puts anything into the list. -/
def Quiet (s : Process R) : Event → Prop
  | .signIn => s.signedIn
  | .act (.move m) => (s.calls m.call).client = 0 → Enters (s.calls m.call).stage → s.madeIn m.call = s.session
  | _ => True

/-- A load of this session assigns what it has read. -/
def Assigns (s : Process R) (e : Event) : Prop :=
  ∃ m docs, ∃ state : List R, e = .act (.move m) ∧ s.calls m.call = ⟨0, .assign docs⟩ ∧ docs.mapM fromMap = .ok state ∧
    s.madeIn m.call = s.session

variable {s s' : Process R} {e : Event}

theorem mem_relist {n : Nat} {shown : List (R × Nat)} {stage : Stage R} {x : R × Nat} (h : x ∈ relist n shown stage) :
    x ∈ shown ∨ Enters stage ∧ (x.2 = n ∨ ∃ y ∈ shown, x.2 = min n y.2) := by
  cases stage with
  | assign docs =>
    simp only [relist] at h
    split at h
    · obtain ⟨r, -, rfl⟩ := List.mem_map.1 h
      exact .inr ⟨rfl, .inl rfl⟩
    · exact .inl h
  | prepend r =>
    rcases List.mem_cons.1 h with rfl | h
    · exact .inr ⟨rfl, .inl rfl⟩
    · exact .inl h
  | replace r =>
    simp only [relist] at h
    split at h
    · next i _ =>
      obtain ⟨j, hj⟩ := List.mem_iff_getElem?.1 h
      rw [List.getElem?_modify, Option.map_eq_map, Option.map_eq_some_iff] at hj
      obtain ⟨y, hy, rfl⟩ := hj
      have hmem := List.mem_of_getElem? hy
      by_cases hij : i = j
      · exact .inr ⟨rfl, .inr ⟨y, hmem, by rw [if_pos hij]⟩⟩
      · rw [if_neg hij]
        exact .inl hmem
    · exact .inl h
  | remove id => exact .inl (List.mem_filter.1 h).1
  | _ => exact .inl h

theorem own_step (h : Own s) (hq : Quiet s e) : Own (step s e) := by
  cases e with
  | signIn =>
    have hs : step s .signIn = s := if_pos hq
    rwa [hs]
  | signOut => exact h
  | act a =>
    simp only [step]
    split
    · exact h
    · intro x hx
      cases a with
      | move m =>
        simp only [shownAfter] at hx
        split at hx
        · next hc =>
          rcases mem_relist hx with hx | ⟨hent, hn⟩
          · exact h x hx
          · rw [hq hc hent] at hn
            rcases hn with hn | ⟨y, hy, hn⟩
            · exact hn
            · rw [hn, h y hy]
              exact Nat.min_self _
        · exact h x hx
      | _ => exact h x hx

theorem own_assigns (h : Assigns s e) : Own (step s e) := by
  obtain ⟨m, docs, state, rfl, hc, hl, hn⟩ := h
  have hstep : (step s (.act (.move m))).shown = state.map fun r => (r, s.session) := by
    simp [step, doer, shownAfter, hc, relist, hl, hn]
  intro x hx
  rw [hstep] at hx
  obtain ⟨r, -, rfl⟩ := List.mem_map.1 hx
  rfl

/-- The list stays the session's. -/
theorem own_run {es : List Event} (h : Own s) (hq : Along step Quiet s es) : Own (run step s es) :=
  Along.invariant (fun _ _ => own_step) h hq

/-! ## Two runs -/

/-- What a call does to the collection and does next is told from the collection, but for what an update ends in. -/
theorem advance_alike {now : DateTime} {ok : Bool} {docs : Collection} {l l' : List R} {stage : Stage R} :
    (advance now ok ⟨docs, l⟩ stage).1.docs = (advance now ok ⟨docs, l'⟩ stage).1.docs ∧
      ((advance now ok ⟨docs, l⟩ stage).2 = (advance now ok ⟨docs, l'⟩ stage).2 ∨
        remaining (advance now ok ⟨docs, l⟩ stage).2 = 0 ∧ remaining (advance now ok ⟨docs, l'⟩ stage).2 = 0) := by
  cases stage with
  | load => cases ok <;> exact ⟨rfl, .inl rfl⟩
  | assign docs' =>
    simp only [advance]
    split <;> exact ⟨rfl, .inl rfl⟩
  | add form user =>
    simp only [advance]
    split <;> exact ⟨rfl, .inl rfl⟩
  | stamp form user uid =>
    simp only [advance]
    split
    · exact ⟨rfl, .inl rfl⟩
    · split <;> exact ⟨rfl, .inl rfl⟩
  | replace r =>
    simp only [advance]
    cases Notifier.replaced r l <;> cases Notifier.replaced r l' <;> exact ⟨rfl, .inr ⟨rfl, rfl⟩⟩
  | _ => exact ⟨rfl, .inl rfl⟩

/-- A call that is done does nothing. -/
theorem step_done {t : System Nat R} {m : Move Nat} (h : remaining (t.calls m.call).stage = 0) : System.step t m = t := by
  have hadv : advance m.now m.ok (t.seen (t.calls m.call).client) (t.calls m.call).stage =
      (t.seen (t.calls m.call).client, (t.calls m.call).stage) := by
    cases hs : (t.calls m.call).stage <;> first | rfl | (rw [hs] at h; cases h)
  have hclock : readings t.clock m.now (t.calls m.call).stage = t.clock := by
    cases hs : (t.calls m.call).stage <;> first | rfl | (rw [hs] at h; cases h)
  simp only [System.step, hadv, hclock]
  simp [seen]

section

variable {t t' : System Nat R} {m : Move Nat} {n : Nat} {made : Nat → Nat}

/-- A step of systems that agree; the call puts nothing of an earlier session into the list. -/
theorem AlikeSystems.move (h : AlikeSystems n made t t')
    (hq : (t.calls m.call).client = 0 → Enters (t.calls m.call).stage → made m.call = n) :
    AlikeSystems n made (System.step t m) (System.step t' m) := by
  rcases h.calls m.call with hc | ⟨hd, hd'⟩ | ⟨hc, -, hent, -, hlt⟩
  · have hadv := @advance_alike _ _ m.now m.ok t.docs (t.lists (t.calls m.call).client) (t'.lists (t.calls m.call).client)
      (t.calls m.call).stage
    refine ⟨?_, fun c hne => ?_, fun i => ?_, ?_⟩
    · simpa [System.step, seen, ← hc, ← h.docs] using hadv.1
    · by_cases hcl : c = (t.calls m.call).client
      · simp [System.step, seen, ← hc, hcl, ← h.docs, h.lists _ (hcl ▸ hne)]
      · simp [System.step, seen, ← hc, hcl, h.lists c hne]
    · by_cases hi : i = m.call
      · subst hi
        rcases hadv.2 with heq | ⟨hd, hd'⟩
        · exact .inl (by simp [System.step, seen, ← hc, ← h.docs, heq])
        · exact .inr (.inl (by simpa [System.step, seen, ← hc, ← h.docs] using And.intro hd hd'))
      · simpa [System.step, hi] using h.calls i
    · simp [System.step, ← hc, h.clock]
  · rw [step_done hd, step_done hd']
    exact h
  · rw [hq hc hent] at hlt
    exact absurd hlt (lt_irrefl _)

end

@[simp] theorem step_move {m : Move Nat} : (step s (.act (.move m))).toSystem = System.step s.toSystem m := by
  simp [step, doer, App.step]

theorem alike_act {a : Act} (h : Alike s s') (hq : Quiet s (.act a)) (hu : Unopened (.act a) ∨ s.lists 0 = s'.lists 0) :
    Alike (step s (.act a)) (step s' (.act a)) := by
  have hfree : ∀ call, remaining (s'.calls call).stage = 0 ↔ remaining (s.calls call).stage = 0 :=
    fun call => (h.systems.calls call).free.symm
  simp only [step, ← h.signedIn, ← h.session, ← h.madeIn, hfree]
  split
  · exact h
  · cases a with
    | move m => exact ⟨h.systems.move hq, h.opened, rfl, rfl, rfl⟩
    | load call client => exact ⟨h.systems.begin, by simp [App.step, h.opened], rfl, rfl, rfl⟩
    | add call client changes user => exact ⟨h.systems.begin, by simp [App.step, h.opened], rfl, rfl, rfl⟩
    | edit client i =>
      have hlist : s.lists client = s'.lists client := by
        by_cases hc : client = 0
        · exact hc ▸ hu.resolve_left fun h => h hc
        · exact h.systems.lists client hc
      exact ⟨h.systems, by simp [App.step, h.opened, hlist], rfl, rfl, rfl⟩
    | submit call client i changes user now =>
      cases hr : (s.opened client)[i]? with
      | some r =>
        have hr' : (s'.opened client)[i]? = some r := h.opened ▸ hr
        simp only [App.step, hr, hr']
        exact ⟨h.systems.begin, by simp [h.opened], rfl, rfl, rfl⟩
      | none =>
        have hr' : (s'.opened client)[i]? = none := h.opened ▸ hr
        simp only [App.step, hr, hr']
        exact ⟨h.systems.free, h.opened, rfl, rfl, rfl⟩
    | remove call client id => exact ⟨h.systems.begin, by simp [App.step, h.opened], rfl, rfl, rfl⟩

theorem alike_step (h : Alike s s') (hq : Quiet s e) (hu : Unopened e ∨ s.lists 0 = s'.lists 0) :
    Alike (step s e) (step s' e) := by
  cases e with
  | signIn =>
    have hs : step s .signIn = s := if_pos hq
    have hs' : step s' .signIn = s' := if_pos (h.signedIn ▸ hq)
    rwa [hs, hs']
  | signOut => exact ⟨h.systems, by simp [step, h.opened], rfl, h.session, h.madeIn⟩
  | act a => exact alike_act h hq hu

/-- Without a call that proceeds, the list is as it was. -/
theorem lists_of_not_move {a : Act} (ha : ∀ m, a ≠ .move m) : (step s (.act a)).lists = s.lists := by
  simp only [step]
  split
  · rfl
  · have hsteps := s.steps a
    show (s.toApp.step a).lists = s.lists
    generalize s.toApp.step a = s₁ at hsteps ⊢
    cases hsteps with
    | moved => exact absurd rfl (ha _)
    | _ => rfl

theorem lists_step (h : Alike s s') (hl : s.lists 0 = s'.lists 0) (hq : Quiet s e) :
    (step s e).lists 0 = (step s' e).lists 0 := by
  cases e with
  | signIn =>
    have hs : step s .signIn = s := if_pos hq
    have hs' : step s' .signIn = s' := if_pos (h.signedIn ▸ hq)
    rwa [hs, hs']
  | signOut => exact hl
  | act a =>
    by_cases ha : ∃ m, a = .move m
    · obtain ⟨m, rfl⟩ := ha
      rw [step_move, step_move]
      rcases h.systems.calls m.call with hc | ⟨hd, hd'⟩ | ⟨hc, -, hent, -, hlt⟩
      · by_cases h0 : (s.calls m.call).client = 0
        · simp [System.step, seen, ← hc, h0, hl, h.systems.docs]
        · simp [System.step, ← hc, Ne.symm h0, hl]
      · rw [step_done hd, step_done hd']
        exact hl
      · rw [hq hc hent] at hlt
        exact absurd hlt (lt_irrefl _)
    · have ha : ∀ m, a ≠ .move m := fun m h => ha ⟨m, h⟩
      rw [lists_of_not_move ha, lists_of_not_move ha]
      exact hl

theorem lists_assigns (h : Alike s s') (ha : Assigns s e) : (step s e).lists 0 = (step s' e).lists 0 := by
  obtain ⟨m, docs, state, rfl, hc, hl, hn⟩ := ha
  have hc' : s'.calls m.call = ⟨0, .assign docs⟩ := by
    rcases h.systems.calls m.call with heq | ⟨hd, -⟩ | ⟨-, -, -, -, hlt⟩
    · exact heq ▸ hc
    · rw [hc] at hd
      cases hd
    · rw [hn] at hlt
      exact absurd hlt (lt_irrefl _)
  rw [step_move, step_move]
  simp [System.step, hc, hc', advance, hl]

theorem alike_run {es : List Event} (h : Alike s s') (hq : Along step Quiet s es) (hu : ∀ e ∈ es, Unopened e) :
    Alike (run step s es) (run step s' es) := by
  induction es generalizing s s' with
  | nil => exact h
  | cons e es ih =>
    rw [run_cons, run_cons]
    have hstep := alike_step h hq.1 (.inl (hu e List.mem_cons_self))
    exact ih hstep hq.2 fun e' he => hu e' (List.mem_cons_of_mem e he)

theorem lists_run {es : List Event} (h : Alike s s') (hl : s.lists 0 = s'.lists 0) (hq : Along step Quiet s es) :
    (run step s es).lists 0 = (run step s' es).lists 0 := by
  induction es generalizing s s' with
  | nil => exact hl
  | cons e es ih =>
    rw [run_cons, run_cons]
    exact ih (alike_step h hq.1 (.inr hl)) (lists_step h hl hq.1) hq.2

/-! ## Whole runs -/

/-- **The list shows a session's own data from when a load of it has assigned**,
or from when it was empty, until somebody signs in or a call of an earlier
session puts something into it: every entry comes from the session, and what
earlier ones had left in the list, or were still to put into it, makes no
difference. -/
theorem own_of_load :
    (∀ (s : Process R) (es : List Event), (s.shown = [] ∨ ∃ s₀ e, Assigns s₀ e ∧ s = step s₀ e) → Along step Quiet s es →
      Own (run step s es)) ∧
    ∀ (s s' : Process R) (pre : List Event) (e : Event) (post : List Event), Alike s s' → Along step Quiet s pre →
      (∀ e ∈ pre, Unopened e) → Assigns (run step s pre) e → Along step Quiet (step (run step s pre) e) post →
      (run step s (pre ++ e :: post)).lists 0 = (run step s' (pre ++ e :: post)).lists 0 := by
  constructor
  · rintro s es (hnil | ⟨s₀, e, ha, rfl⟩) hq
    · refine own_run (fun x hx => ?_) hq
      rw [hnil] at hx
      cases hx
    · exact own_run (own_assigns ha) hq
  · intro s s' pre e post h hpre hu ha hpost
    have halike := alike_run h hpre hu
    have hquiet : Quiet (run step s pre) e := by
      obtain ⟨m, docs, state, rfl, -, -, hn⟩ := ha
      exact fun _ _ => hn
    rw [run_append, run_append, run_cons, run_cons]
    have hun : Unopened e := by
      obtain ⟨m, _, _, rfl, -⟩ := ha
      trivial
    exact lists_run (alike_step halike hquiet (.inl hun)) (lists_assigns halike ha) hpost

/-- A patient is stored, and nobody is signed in. -/
def signedOut : Process Patient :=
  { docs := SortedMap.empty.set "P-1" (doc Codec.registeredPatient)
    lists := fun _ => []
    calls := fun _ => ⟨0, .idle⟩
    clock := .reading 0
    opened := fun _ => []
    signedIn := false
    session := 0
    madeIn := fun _ => 0
    shown := []
    map_shown := rfl }

/-- Somebody signs in, the list is loaded, and they sign out. -/
def firstSession : List Event :=
  [ .signIn, .act (.load 0 0), .act (.move { call := 0, now := .reading 1 }), .act (.move { call := 0, now := .reading 2 }),
    .signOut ]

/-- **The next user is shown the last one's list**, and still so when their own load has failed. -/
theorem shows_earlier :
    (run step signedOut (firstSession ++ [.signIn])).signedIn ∧ ¬ Own (run step signedOut (firstSession ++ [.signIn])) ∧
      ¬ Own (run step signedOut (firstSession ++ [.signIn, .act (.load 0 0),
        .act (.move { call := 0, now := .reading 3, ok := false })])) := by
  refine ⟨by decide +kernel, ?_, ?_⟩ <;> (unfold Own; decide +kernel)

instance : Decidable (Quiet s e) := by
  cases e with
  | signIn => exact inferInstanceAs (Decidable (_ = _))
  | signOut => exact .isTrue trivial
  | act a =>
    cases a with
    | move m => exact inferInstanceAs (Decidable (_ → _ → _))
    | _ => exact .isTrue trivial

/-- The next user signs in and starts a load, and it reads. -/
def secondLoad : List Event := [ .act (.load 0 0), .act (.move { call := 0, now := .reading 3 }) ]

/-- The first session, its load failed. -/
def firstFailed : List Event :=
  [ .signIn, .act (.load 0 0), .act (.move { call := 0, now := .reading 1, ok := false }), .signOut ]

theorem assigns_second : Assigns (run step (run step signedOut (firstSession ++ [.signIn])) secondLoad)
    (.act (.move { call := 0, now := .reading 4 })) :=
  ⟨_, [doc Codec.registeredPatient], [reloaded Codec.registeredPatient], rfl, rfl, by decide +kernel, rfl⟩

theorem alike_failed :
    Alike (run step signedOut (firstSession ++ [.signIn])) (run step signedOut (firstFailed ++ [.signIn])) where
  systems :=
    { docs := rfl
      lists := fun c hc => by
        cases c with
        | zero => exact absurd rfl hc
        | succ c => rfl
      calls := fun i => by
        cases i with
        | zero => exact .inr (.inl ⟨rfl, rfl⟩)
        | succ i => exact .inl rfl
      clock := rfl }
  opened := rfl
  signedIn := rfl
  session := rfl
  madeIn := rfl

/-- The next user's list after a load of their own and a removal: theirs, and the same had the first session's load failed. -/
theorem own_of_load_second :
    Own (run step (step (run step (run step signedOut (firstSession ++ [.signIn])) secondLoad)
      (.act (.move { call := 0, now := .reading 4 }))) [.act (.remove 0 0 "P-1"), .act (.move { call := 0, now := .reading 5 })]) ∧
    (run step (run step signedOut (firstSession ++ [.signIn])) (secondLoad ++ [.act (.move { call := 0, now := .reading 4 })])).lists 0 =
      (run step (run step signedOut (firstFailed ++ [.signIn])) (secondLoad ++ [.act (.move { call := 0, now := .reading 4 })])).lists 0 :=
  ⟨own_of_load.1 _ _ (.inr ⟨_, _, assigns_second, rfl⟩) (by decide +kernel),
    own_of_load.2 _ _ secondLoad _ [] alike_failed (by decide +kernel) (by simp [secondLoad, Unopened]) assigns_second trivial⟩

end Sessions
