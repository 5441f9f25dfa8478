/-
What holds of every record of the app: stored, listed, open in a screen, or
in the hands of a call (`Everywhere`). A record is new where an add stamps a
form or an edit is decoded, and is carried about and reloaded everywhere
else; so what new ones have and reloads keep holds everywhere after an act
(`Everywhere.step`). The developments about whole runs of the app say what
that is, and take the induction from here.
-/
import Sdapk.Loadable

open Dart Firestore Entity Screen Runs System
open App (Begins Steps)

namespace Everywhere

/-- What is asked of records, of the forms of adds in flight with their users, and of the ids they are given. -/
structure Property (R : Type) where
  record : R → Prop
  form : DynMap → String → Prop
  id : String → Prop

variable {R : Type} [Screen R]

/-- A call has in hand only what `P` holds of. -/
def Bears (P : Property R) : Stage R → Prop
  | .assign docs => ∀ d ∈ docs, ∃ r : R, d = doc r ∧ P.record r
  | .add form user => P.form form user
  | .stamp form user uid => P.form form user ∧ P.id uid
  | .write r | .prepend r | .update r | .replace r => P.record r
  | _ => True

/-- Each document is a record that `P` holds of, under its own id. -/
def Stored (P : Property R) (docs : Collection) : Prop := ∀ e ∈ docs, ∃ r : R, e = (key r, doc r) ∧ P.record r

structure Holds (P : Property R) (s : App R) : Prop where
  docs : Stored P s.docs
  lists : ∀ c, ∀ r ∈ s.lists c, P.record r
  opened : ∀ c, ∀ r ∈ s.opened c, P.record r
  calls : ∀ i, Bears P (s.calls i).stage

/-- There is nothing at the start. -/
theorem holds_start {P : Property R} {clock : DateTime} : Holds P (App.start R clock) where
  docs _ he := absurd he SortedMap.not_mem_empty
  lists _ _ hr := by cases hr
  opened _ _ hr := by cases hr
  calls _ := trivial

/-- `P'` holds of whatever `P` holds of. -/
structure Implies (P P' : Property R) : Prop where
  record : ∀ r, P.record r → P'.record r
  form : ∀ form user, P.form form user → P'.form form user
  id : ∀ uid, P.id uid → P'.id uid

/-- What an act must see to for `P'` to hold after it where `P` held before: what it reads back, its own form, the
id it is given, the record it stamps, the edit it decodes. -/
structure Supplies (s : App R) (a : Act) (P P' : Property R) : Prop where
  implies : Implies P P'
  reloaded : ∀ m docs r, a = .move m → (s.calls m.call).stage = .assign docs → doc r ∈ docs → P.record r →
    P'.record (reloaded r)
  filled : ∀ call client changes user, a = .add call client changes (some user) → Accepted R (newForm R changes) →
    P'.form (newForm R changes) user
  given : ∀ m form user uid, a = .move m → (s.calls m.call).stage = .add form user →
    Notifier.generateId R { query := m.ok } s.docs = .ok uid → P'.id uid
  stamped : ∀ m form user uid r, a = .move m → (s.calls m.call).stage = .stamp form user uid → P.form form user → P.id uid →
    newRecord form uid user m.now = .ok r → P'.record r
  edited : ∀ call client i changes user now r r', a = .submit call client i changes user now →
    remaining (s.calls call).stage = 0 → (s.opened client)[i]? = some r → P.record r →
    Accepted R (editForm r changes) → edited r user now (editForm r changes) = .ok r' → P'.record r'

section

variable {P P' : Property R} {s : App R} {a : Act} {m : Move Nat} {w : World R} {stage : Stage R} {x : World R × Stage R}

theorem Stored.imp {docs : Collection} (h : Stored P docs) (hi : Implies P P') : Stored P' docs := fun e he => by
  obtain ⟨r, hr, hp⟩ := h e he
  exact ⟨r, hr, hi.record r hp⟩

theorem Bears.imp (h : Bears P stage) (hi : Implies P P') : Bears P' stage := by
  cases stage with
  | assign docs =>
    intro d hd
    obtain ⟨r, hr, hp⟩ := h d hd
    exact ⟨r, hr, hi.record r hp⟩
  | add form user => exact hi.form _ _ h
  | stamp form user uid => exact ⟨hi.form _ _ h.1, hi.id _ h.2⟩
  | write r | prepend r | update r | replace r => exact hi.record _ h
  | _ => trivial

/-- Documents of such records are decoded to such records. -/
theorem record_mapM {docs : List Doc} {l : List R} (hre : ∀ r, doc r ∈ docs → P.record r → P'.record (reloaded r))
    (h : ∀ d ∈ docs, ∃ r : R, d = doc r ∧ P.record r) (hl : docs.mapM fromMap = .ok l) : ∀ r ∈ l, P'.record r := by
  intro r hr
  have hmem : (.ok r : Except Error R) ∈ docs.map fromMap := by
    rw [mapM_eq_ok.1 hl]
    exact List.mem_map_of_mem hr
  obtain ⟨d, hd, hdr⟩ := List.mem_map.1 hmem
  obtain ⟨r₀, rfl, h₀⟩ := h d hd
  rw [fromMap_doc] at hdr
  exact Except.ok.inj hdr ▸ hre r₀ hd h₀

/-- **A call that proceeds.** -/
theorem Supplies.advances (h : Supplies s (.move m) P P') (hs : (s.calls m.call).stage = stage) (hw : w.docs = s.docs)
    (hadv : Advances m.now m.ok w stage x) (hd : Stored P s.docs) (hl : ∀ r ∈ w.state, P.record r) (hb : Bears P stage) :
    Stored P' x.1.docs ∧ (∀ r ∈ x.1.state, P'.record r) ∧ Bears P' x.2 := by
  rw [← hw] at hd
  have hdocs : Stored P' w.docs := hd.imp h.implies
  have hlist : ∀ r ∈ w.state, P'.record r := fun r hr => h.implies.record r (hl r hr)
  have hbears : Bears P' stage := hb.imp h.implies
  cases hadv with
  | read =>
    refine ⟨hdocs, hlist, fun d hq => ?_⟩
    obtain ⟨k, he⟩ := mem_query hq
    obtain ⟨r, hr, hp⟩ := hdocs _ he
    exact ⟨r, (Prod.mk.inj hr).2, hp⟩
  | assigned hm => exact ⟨hdocs, record_mapM (fun r => h.reloaded m _ r rfl hs) hb hm, trivial⟩
  | given hg => exact ⟨hdocs, hlist, hbears, h.given m _ _ _ rfl hs (hw ▸ hg)⟩
  | stamped hr => exact ⟨hdocs, hlist, h.stamped m _ _ _ _ rfl hs hb.1 hb.2 hr⟩
  | wrote | updated =>
    refine ⟨fun e he => ?_, hlist, hbears⟩
    simp only [Notifier.upsert] at he
    split at he
    · rcases SortedMap.mem_set.1 he with rfl | ⟨he, -⟩
      · exact ⟨_, rfl, hbears⟩
      · exact hdocs e he
    · exact hdocs e he
  | prepended =>
    refine ⟨hdocs, fun r hr => ?_, trivial⟩
    rcases List.mem_cons.1 hr with rfl | hr
    · exact hbears
    · exact hlist r hr
  | replaced hm =>
    refine ⟨hdocs, fun r' hr' => ?_, trivial⟩
    unfold Notifier.replaced at hm
    split at hm
    · obtain rfl := Except.ok.inj hm
      rcases List.mem_or_eq_of_mem_set hr' with hr' | rfl
      · exact hlist r' hr'
      · exact hbears
    · cases hm
  | removed => exact ⟨hdocs, fun r hr => hlist r (Keyed.mem_without.1 hr).1, trivial⟩
  | deleted =>
    refine ⟨fun e he => ?_, hlist, trivial⟩
    simp only [Notifier.delete] at he
    split at he
    · exact hdocs e (SortedMap.mem_erase.1 he).1
    · exact hdocs e he
  | done => exact ⟨hdocs, hlist, hbears⟩
  | _ => exact ⟨hdocs, hlist, trivial⟩

/-- A call that is made. -/
theorem Supplies.begins {call client : Nat} (h : Supplies s a P P') (hs : Holds P s) (hb : Begins s a call client stage)
    (hfree : remaining (s.calls call).stage = 0) : Bears P' stage := by
  cases hb with
  | add ha => exact h.filled _ _ _ _ rfl ha
  | update hr ha he => exact h.edited _ _ _ _ _ _ _ _ rfl hfree hr (hs.opened _ _ (List.mem_of_getElem? hr)) ha he
  | _ => trivial

/-- **One step**: what an act supplies holds everywhere after it. -/
theorem Holds.step (hs : Holds P s) (h : Supplies s a P P') : Holds P' (s.step a) := by
  have hcalls : ∀ i, Bears P' ((s.step a).calls i).stage := fun i => by
    have hc := s.becomes a i
    generalize (s.step a).calls i = c at hc ⊢
    cases hc with
    | kept => exact (hs.calls i).imp h.implies
    | moved hm hi hadv =>
      subst hm hi
      exact (h.advances rfl rfl hadv hs.docs (hs.lists _) (hs.calls _)).2.2
    | begun hb _ hfree => exact h.begins hs hb hfree
  have hsteps := s.steps a
  generalize s.step a = s' at hsteps hcalls ⊢
  have hlists : ∀ c, ∀ r ∈ s.lists c, P'.record r := fun c r hr => h.implies.record r (hs.lists c r hr)
  have hopened : ∀ c, ∀ r ∈ s.opened c, P'.record r := fun c r hr => h.implies.record r (hs.opened c r hr)
  cases hsteps with
  | @moved m =>
    have hadv := advances m.now m.ok (s.seen (s.calls m.call).client) (s.calls m.call).stage
    obtain ⟨hdocs, hlist, -⟩ := h.advances rfl rfl hadv hs.docs (hs.lists _) (hs.calls m.call)
    refine ⟨hdocs, fun c => ?_, hopened, hcalls⟩
    by_cases hc : c = (s.calls m.call).client
    · simpa [System.step, hc] using hlist
    · simpa [System.step, hc] using hlists c
  | @opened client i =>
    refine ⟨hs.docs.imp h.implies, hlists, fun c r hr => ?_, hcalls⟩
    by_cases hc : c = client
    · subst hc
      simp only [Function.update_self, List.mem_append, Option.mem_toList] at hr
      rcases hr with hr | hr
      · exact hopened c r hr
      · exact hlists c r (List.mem_of_getElem? hr)
    · simp only [Function.update_of_ne hc] at hr
      exact hopened c r hr
  | begun => exact ⟨hs.docs.imp h.implies, hlists, hopened, hcalls⟩
  | idle => exact ⟨hs.docs.imp h.implies, hlists, hopened, hcalls⟩

end

end Everywhere
