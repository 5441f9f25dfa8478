/-
Registrations in flight. An add reads the latest id and later writes under
the next one; whether any is lost turns on one thing alone: that no call
asks for the latest id while another has been given its id and has not yet
written (`registered_iff`). Two calls in between one another's query and
write are given one id, and one document is left of them.
-/
import Sdapk.System

open Dart Firestore Entity Screen Register Runs System

namespace Registration

variable {ι R : Type}

/-- The call has its id, and has not written. -/
def Holding : Stage R → Bool
  | .stamp _ _ _ | .write _ => true
  | _ => false

/-- Asking for the latest id. -/
def Asking : Stage R → Bool
  | .add _ _ => true
  | _ => false

theorem not_holding {stage : Stage R} (h : Asking stage) : ¬ Holding stage := by
  cases stage <;> first | exact Bool.false_ne_true | cases h

/-- No call asks for the latest id while another has its own and has not written. -/
def Apart (s : System ι R) (m : Move ι) : Prop := Asking (s.calls m.call).stage → ∀ j, ¬ Holding (s.calls j).stage

variable [Screen R]

/-- **Nothing was lost**: each call has its document, one of its own and with
its form's data; what was stored before is as it was; no list has an id twice. -/
structure Registered (docs₀ : Collection) (forms : ι → DynMap) (users : ι → String) (s : System ι R) : Prop where
  made : ∃ r : ι → R, Function.Injective (key ∘ r) ∧ ∀ i, (s.calls i).stage = .added (r i) ∧
    (key (r i), doc (r i)) ∈ s.docs ∧ key (r i) ∉ docs₀.keys ∧ ∃ uid now, newRecord (forms i) uid (users i) now = .ok (r i)
  old : ∀ e ∈ docs₀, e ∈ s.docs
  nodup : ∀ c, ((s.lists c).map key).Nodup

/-! ## What becomes of an id -/

/-- Where an add is that has been given `uid`. -/
inductive Given (form : DynMap) (user uid : String) : Stage R → Prop
  | stamp : Given form user uid (.stamp form user uid)
  | write {r : R} {now : DateTime} (h : newRecord form uid user now = .ok r) : Given form user uid (.write r)
  | prepend {r : R} {now : DateTime} (h : newRecord form uid user now = .ok r) : Given form user uid (.prepend r)
  | added {r : R} {now : DateTime} (h : newRecord form uid user now = .ok r) : Given form user uid (.added r)

section

variable {form changes : DynMap} {user uid : String} {stage : Stage R} {now : DateTime} {w : World R} {r : R}

/-- A call keeps the id it was given. -/
theorem Given.advance (h : Given (newForm R changes) user uid stage) (ha : Accepted R (newForm R changes)) :
    Given (newForm R changes) user uid (advance now true w stage).2 := by
  cases h with
  | stamp =>
    obtain ⟨r, hr, -⟩ := @newRecord_ok R _ changes uid user now ha
    have hr : (newRecord (newForm R changes) uid user now : Except Error R) = .ok r := hr
    simp only [System.advance, if_neg (newForm_ne_nil (R := R)), hr]
    exact .write hr
  | write h => exact .prepend h
  | prepend h => exact .added h
  | added h => exact .added h

theorem Given.key_eq (h : Given form user uid (.added r)) : key r = uid := by
  cases h with
  | added h => exact (newRecord_stamped h).1

end

/-! ## While the calls are apart -/

/-- The call has written `r`. -/
def Written : Stage R → R → Prop
  | .prepend r, r' | .added r, r' => r = r'
  | _, _ => False

/-- `r` is stored, under an id that nothing was stored under at the start. -/
structure Made (docs₀ docs : Collection) (form : DynMap) (user : String) (r : R) : Prop where
  made : ∃ uid now, newRecord form uid user now = .ok r
  stored : (key r, doc r) ∈ docs
  new : key r ∉ docs₀.keys

/-- Where a call is, and what it may rely on there. -/
inductive Fits (docs₀ : Collection) (s : System ι R) (form : DynMap) (user : String) (client : Nat) : Stage R → Prop
  | asking : Fits docs₀ s form user client (.add form user)
  | given {uid : String} (hg : Notifier.generateId R {} s.docs = .ok uid) : Fits docs₀ s form user client (.stamp form user uid)
  | stamped {r : R} {t : DateTime} (hr : newRecord form (key r) user s.clock = .ok r)
      (hg : Notifier.generateId R {} s.docs = .ok (key r)) (hp : Past s.docs t) (ht : t.isBefore s.clock) :
      Fits docs₀ s form user client (.write r)
  | written {r : R} (hm : Made docs₀ s.docs form user r) (hn : key r ∉ (s.lists client).map key) :
      Fits docs₀ s form user client (.prepend r)
  | listed {r : R} (hm : Made docs₀ s.docs form user r) : Fits docs₀ s form user client (.added r)

/-- At most one call holds an id; the others have written under ids of their own, or not asked. -/
structure Inv (docs₀ : Collection) (forms : ι → DynMap) (users : ι → String) (s : System ι R) : Prop where
  kept : WellKept R s.docs
  ordered : Ordered R s.docs
  past : Past s.docs s.clock
  old : ∀ e ∈ docs₀, e ∈ s.docs
  fits : ∀ i, Fits docs₀ s (forms i) (users i) (s.calls i).client (s.calls i).stage
  alone : ∀ i j, Holding (s.calls i).stage → Holding (s.calls j).stage → i = j
  distinct : ∀ i j r r', Written (s.calls i).stage r → Written (s.calls j).stage r' → key r = key r' → i = j
  nodup : ∀ c, ((s.lists c).map key).Nodup
  listed : ∀ c, ∀ r ∈ s.lists c, key r ∈ s.docs.keys

section

variable {docs₀ : Collection} {form : DynMap} {user : String} {client c : Nat} {stage stage' : Stage R} {s s' : System ι R}
  {m : Move ι} {forms : ι → DynMap} {users : ι → String} {r : R} {n : Int}

theorem Made.stored_in {docs docs' : Collection} (h : Made docs₀ docs form user r)
    (hd : (key r, doc r) ∈ docs → (key r, doc r) ∈ docs') : Made docs₀ docs' form user r := ⟨h.made, hd h.stored, h.new⟩

theorem Fits.frame (h : Fits docs₀ s form user client stage)
    (hhold : Holding stage → s'.docs = s.docs ∧ s'.clock = s.clock)
    (hw : ∀ r, Written stage r → (key r, doc r) ∈ s.docs → (key r, doc r) ∈ s'.docs)
    (hl : ∀ r, stage = .prepend r → key r ∉ (s.lists client).map key → key r ∉ (s'.lists client).map key) :
    Fits docs₀ s' form user client stage := by
  cases h with
  | asking => exact .asking
  | given hg =>
    obtain ⟨hd, -⟩ := hhold rfl
    exact .given (hd ▸ hg)
  | stamped hr hg hp ht =>
    obtain ⟨hd, hc⟩ := hhold rfl
    exact .stamped (hc ▸ hr) (hd ▸ hg) (hd ▸ hp) (hc ▸ ht)
  | written hm hn => exact .written (hm.stored_in (hw _ rfl)) (hl _ rfl hn)
  | listed hm => exact .listed (hm.stored_in (hw _ rfl))

/-- Calls that start with nothing done. -/
theorem inv_start (hkept : WellKept R s.docs) (hordered : Ordered R s.docs) (hpast : Past s.docs s.clock)
    (hnodup : ∀ c, ((s.lists c).map key).Nodup) (hlisted : ∀ c, ∀ r ∈ s.lists c, key r ∈ s.docs.keys)
    (hstart : ∀ i, (s.calls i).stage = .add (forms i) (users i)) : Inv s.docs forms users s where
  kept := hkept
  ordered := hordered
  past := hpast
  old _ := id
  fits i := by rw [hstart i]; exact .asking
  alone i j hi := by rw [hstart i] at hi; cases hi
  distinct i j r r' hi := by rw [hstart i] at hi; exact hi.elim
  nodup := hnodup
  listed := hlisted

/-- Once the calls are done, nothing was lost. -/
theorem Inv.registered (h : Inv docs₀ forms users s) (hdone : ∀ i, remaining (s.calls i).stage = 0) :
    Registered docs₀ forms users s where
  made := by
    have hr : ∀ i, ∃ r, (s.calls i).stage = .added r ∧ Made docs₀ s.docs (forms i) (users i) r := by
      intro i
      have hfits := h.fits i
      have hd := hdone i
      generalize (s.calls i).stage = stage at hfits hd
      cases hfits with
      | listed hm => exact ⟨_, rfl, hm⟩
      | _ => cases hd
    choose r hr using hr
    refine ⟨r, fun i j hk => ?_, fun i => ⟨(hr i).1, (hr i).2.stored, (hr i).2.new, (hr i).2.made⟩⟩
    exact h.distinct i j (r i) (r j) (by rw [(hr i).1]; rfl) (by rw [(hr j).1]; rfl) hk
  old := h.old
  nodup := h.nodup

/-- The id a held call was given is the one that is given now. -/
theorem Inv.held (h : Inv docs₀ forms users s) {j : ι} (hj : Holding (s.calls j).stage) :
    ∃ uid, Notifier.generateId R {} s.docs = .ok uid ∧ Given (forms j) (users j) uid (s.calls j).stage := by
  have hfits := h.fits j
  generalize (s.calls j).stage = stage at hfits hj
  cases hfits with
  | given hg => exact ⟨_, hg, .stamp⟩
  | stamped hr hg => exact ⟨_, hg, .write hr⟩
  | _ => cases hj

variable [DecidableEq ι]

theorem Inv.moved {docs : Collection} {lists : Nat → List R} {clock : DateTime} (h : Inv docs₀ forms users s)
    (hs : s' = ⟨docs, lists, Function.update s.calls m.call ⟨c, stage'⟩, clock⟩)
    (hkept : WellKept R docs) (hordered : Ordered R docs) (hpast : Past docs clock) (hold : ∀ e ∈ docs₀, e ∈ docs)
    (hfits : Fits docs₀ s' (forms m.call) (users m.call) c stage')
    (hother : ∀ i, i ≠ m.call → Fits docs₀ s' (forms i) (users i) (s.calls i).client (s.calls i).stage)
    (halone : Holding stage' → ∀ i, i ≠ m.call → ¬ Holding (s.calls i).stage)
    (hdistinct : ∀ r, Written stage' r → ∀ i, i ≠ m.call → ∀ r', Written (s.calls i).stage r' → key r ≠ key r')
    (hnodup : ∀ c, ((lists c).map key).Nodup) (hlisted : ∀ c, ∀ r ∈ lists c, key r ∈ docs.keys) :
    Inv docs₀ forms users s' := by
  have hself : s'.calls m.call = ⟨c, stage'⟩ := by rw [hs]; simp
  have hne : ∀ i, i ≠ m.call → s'.calls i = s.calls i := fun i hi => by rw [hs]; simp [hi]
  refine ⟨by rw [hs]; exact hkept, by rw [hs]; exact hordered, by rw [hs]; exact hpast, by rw [hs]; exact hold, ?_, ?_, ?_,
    by rw [hs]; exact hnodup, by rw [hs]; exact hlisted⟩
  · intro i
    by_cases hi : i = m.call
    · rw [hi, hself]
      exact hfits
    · rw [hne i hi]
      exact hother i hi
  · intro i j hi hj
    by_cases him : i = m.call <;> by_cases hjm : j = m.call
    · rw [him, hjm]
    · rw [him, hself] at hi
      rw [hne j hjm] at hj
      exact absurd hj (halone hi j hjm)
    · rw [hjm, hself] at hj
      rw [hne i him] at hi
      exact absurd hi (halone hj i him)
    · rw [hne i him] at hi
      rw [hne j hjm] at hj
      exact h.alone i j hi hj
  · intro i j r r' hi hj hk
    by_cases him : i = m.call <;> by_cases hjm : j = m.call
    · rw [him, hjm]
    · rw [him, hself] at hi
      rw [hne j hjm] at hj
      exact absurd hk (hdistinct r hi j hjm r' hj)
    · rw [hjm, hself] at hj
      rw [hne i him] at hi
      exact absurd hk.symm (hdistinct r' hj i him r hi)
    · rw [hne i him] at hi
      rw [hne j hjm] at hj
      exact h.distinct i j r r' hi hj hk

/-- A call is given the next id: one that no other holds. -/
theorem Inv.ask (h : Inv docs₀ forms users s) (hc : s.calls m.call = ⟨c, .add form user⟩) (hok : m.ok) (happart : Apart s m)
    (hform : form = forms m.call) (huser : user = users m.call) : Inv docs₀ forms users (step s m) := by
  obtain ⟨n, -, hg, -⟩ := generateId_fresh (o := {}) h.kept h.ordered rfl
  have ha : advance m.now m.ok (s.seen c) (.add form user) = (s.seen c, .stamp form user (idOf R n)) := by
    simp only [advance, hok, seen, hg]
  have hnone : ∀ i, ¬ Holding (s.calls i).stage := happart (by rw [hc]; rfl)
  subst hform huser
  refine h.moved (step_eq hc ha) h.kept h.ordered h.past h.old (.given ?_) (fun i _ => ?_) (fun _ i _ => hnone i)
    (fun _ hw => hw.elim) ?_ ?_
  · rw [step_eq hc ha]
    exact hg
  · rw [step_eq hc ha]
    exact (h.fits i).frame (fun hi => absurd hi (hnone i)) (fun _ _ => id) fun _ _ hn => by simpa [seen] using hn
  · simpa [seen] using h.nodup
  · simpa [seen] using h.listed

/-- A call decodes and stamps its form, later than anything stored. -/
theorem Inv.stamp {changes : DynMap} {uid : String} (h : Inv docs₀ forms users s)
    (hc : s.calls m.call = ⟨c, .stamp form user uid⟩) (hticks : Ticks s m) (hform : form = forms m.call)
    (huser : user = users m.call) (hnew : form = newForm R changes) (ha : Accepted R form)
    (hg : Notifier.generateId R {} s.docs = .ok uid) : Inv docs₀ forms users (step s m) := by
  subst hnew
  obtain ⟨r, hr, -⟩ := @newRecord_ok R _ changes uid user m.now ha
  have hr : (newRecord (newForm R changes) uid user m.now : Except Error R) = .ok r := hr
  obtain rfl : key r = uid := (newRecord_stamped hr).1
  have ha : advance m.now m.ok (s.seen c) (.stamp (newForm R changes) user (key r)) = (s.seen c, .write r) := by
    simp only [advance, if_neg (newForm_ne_nil (R := R)), hr]
  have htick : s.clock.isBefore m.now := hticks (by rw [hc]; rfl)
  have hheld : Holding (s.calls m.call).stage := by rw [hc]; rfl
  have hnone : ∀ i, i ≠ m.call → ¬ Holding (s.calls i).stage := fun i hi hh => hi (h.alone i _ hh hheld)
  rw [hform, huser] at hr
  refine h.moved (step_eq hc ha) h.kept h.ordered (h.past.mono htick) h.old ?_ (fun i hi => ?_) (fun _ i hi => hnone i hi)
    (fun _ hw => hw.elim) ?_ ?_
  · rw [step_eq hc ha]
    exact .stamped hr hg h.past htick
  · rw [step_eq hc ha]
    exact (h.fits i).frame (fun hh => absurd hh (hnone i hi)) (fun _ _ => id) fun _ _ hn => by simpa [seen] using hn
  · simpa [seen] using h.nodup
  · simpa [seen] using h.listed

/-- A call writes under its id, which nothing is stored under. -/
theorem Inv.write {t : DateTime} (h : Inv docs₀ forms users s) (hc : s.calls m.call = ⟨c, .write r⟩) (hok : m.ok)
    (hr : newRecord (forms m.call) (key r) (users m.call) s.clock = .ok r)
    (hg : Notifier.generateId R {} s.docs = .ok (key r)) (hp : Past s.docs t) (ht : t.isBefore s.clock) :
    Inv docs₀ forms users (step s m) := by
  obtain ⟨n, hn, hg', hfresh⟩ := generateId_fresh (o := {}) h.kept h.ordered rfl
  have hkey : key r = idOf R n := Except.ok.inj (hg.symm.trans hg')
  have hnew : key r ∉ s.docs.keys := hkey ▸ not_mem_of_fresh hfresh
  have ha : advance m.now m.ok (s.seen c) (.write r) = (⟨s.docs.set (key r) (doc r), s.lists c⟩, .prepend r) := by
    simp only [advance, seen, Notifier.upsert, if_pos hok]
  have hdate : (doc r).get "createdAt" = stored (.dateTime s.clock) := get_doc_createdAt (newRecord_stamped hr).2.1
  have hheld : Holding (s.calls m.call).stage := by rw [hc]; rfl
  have hnone : ∀ i, i ≠ m.call → ¬ Holding (s.calls i).stage := fun i hi hh => hi (h.alone i _ hh hheld)
  have hmem : ∀ e ∈ s.docs, e ∈ s.docs.set (key r) (doc r) := fun e he =>
    SortedMap.mem_set.2 (.inr ⟨he, fun hk => hnew (hk ▸ SortedMap.mem_keys_of_mem he)⟩)
  have hmade : Made docs₀ (s.docs.set (key r) (doc r)) (forms m.call) (users m.call) r :=
    ⟨⟨_, _, hr⟩, SortedMap.mem_set.2 (.inl rfl), fun hk => by
      obtain ⟨d, he⟩ := SortedMap.mem_keys.1 hk
      exact hnew (SortedMap.mem_keys_of_mem (h.old _ he))⟩
  have hunlisted : ∀ c, key r ∉ (s.lists c).map key := by
    intro c hmem
    obtain ⟨r', hr', hk⟩ := List.mem_map.1 hmem
    exact hnew (hk ▸ h.listed c r' hr')
  refine h.moved (step_eq hc ha) (h.kept.set hn hkey) ?_ (h.past.set ?_) (fun e he => hmem e (h.old e he)) ?_ (fun i hi => ?_)
    (fun hh => absurd hh Bool.false_ne_true) ?_ ?_ ?_
  · rw [hkey]
    exact h.ordered.set_last hp ht hfresh hdate
  · rw [hdate]
  · rw [step_eq hc ha]
    exact .written hmade (by simpa using hunlisted c)
  · rw [step_eq hc ha]
    exact (h.fits i).frame (fun hh => absurd hh (hnone i hi)) (fun _ _ => hmem _) fun _ _ hn => by simpa using hn
  · -- What another call has written is stored.
    rintro r' rfl i - r'' hw hk
    have hfits := h.fits i
    have hst : (key r'', doc r'') ∈ s.docs := by
      generalize (s.calls i).stage = stage at hfits hw
      cases hfits with
      | written hm => exact (hw : _ = r'') ▸ hm.stored
      | listed hm => exact (hw : _ = r'') ▸ hm.stored
      | _ => exact hw.elim
    exact hnew (hk ▸ SortedMap.mem_keys_of_mem hst)
  · simpa using h.nodup
  · intro c' r' hr'
    exact SortedMap.mem_keys_set.2 (.inr (h.listed c' r' (by simpa using hr')))

/-- A call lists what it has written. -/
theorem Inv.list (h : Inv docs₀ forms users s) (hc : s.calls m.call = ⟨c, .prepend r⟩)
    (hm : Made docs₀ s.docs (forms m.call) (users m.call) r) (hn : key r ∉ (s.lists c).map key) :
    Inv docs₀ forms users (step s m) := by
  have ha : advance m.now m.ok (s.seen c) (.prepend r) = (⟨s.docs, r :: s.lists c⟩, .added r) := rfl
  have hwritten : Written (s.calls m.call).stage r := by rw [hc]; rfl
  refine h.moved (step_eq hc ha) h.kept h.ordered h.past h.old ?_ (fun i hi => ?_) (fun hh => absurd hh Bool.false_ne_true) ?_ ?_ ?_
  · rw [step_eq hc ha]
    exact .listed hm
  · rw [step_eq hc ha]
    refine (h.fits i).frame (fun _ => ⟨rfl, rfl⟩) (fun _ _ => id) fun r' hst hn' => ?_
    have hne : key r' ≠ key r := fun hk => hi (h.distinct i _ r' r (by rw [hst]; rfl) hwritten hk)
    by_cases hcl : (s.calls i).client = c
    · rw [hcl] at hn' ⊢
      simpa using ⟨hne, by simpa using hn'⟩
    · simpa [hcl] using hn'
  · rintro r' rfl i hi r'' hw hk
    exact hi (h.distinct i _ r'' r hw hwritten hk.symm)
  · intro c'
    by_cases hcl : c' = c
    · subst hcl
      simpa using ⟨by simpa using hn, h.nodup c'⟩
    · simpa [hcl] using h.nodup c'
  · intro c' r' hr'
    by_cases hcl : c' = c
    · subst hcl
      simp only [Function.update_self, List.mem_cons] at hr'
      rcases hr' with rfl | hr'
      · exact SortedMap.mem_keys_of_mem hm.stored
      · exact h.listed c' r' hr'
    · exact h.listed c' r' (by simpa [hcl] using hr')

/-- A call that has nothing left to do does nothing. -/
theorem step_finished {c : Nat} (hc : s.calls m.call = ⟨c, .added r⟩) : step s m = s := by
  have ha : advance m.now m.ok (s.seen c) (.added r) = (s.seen c, .added r) := rfl
  rw [step_eq hc ha, ← hc]
  simp [seen, readings]

/-- **One step**, of calls that stay apart. -/
theorem inv_step (hforms : ∀ i, ∃ changes, forms i = newForm R changes ∧ Accepted R (forms i)) (h : Inv docs₀ forms users s)
    (hok : m.ok) (hticks : Ticks s m) (happart : Apart s m) : Inv docs₀ forms users (step s m) := by
  have hfits := h.fits m.call
  rcases hc : s.calls m.call with ⟨c, stage⟩
  rw [hc] at hfits
  cases hfits with
  | asking => exact h.ask hc hok happart rfl rfl
  | given hg =>
    obtain ⟨changes, hnew, ha⟩ := hforms m.call
    exact h.stamp hc hticks rfl rfl hnew ha hg
  | stamped hr hg hp ht => exact h.write hc hok hr hg hp ht
  | written hm hn => exact h.list hc hm hn
  | listed => rw [step_finished hc]; exact h

/-! ## Where two calls are not apart -/

theorem given_run {i : ι} {uid : String} {ms : List (Move ι)}
    (hforms : ∃ changes, forms i = newForm R changes ∧ Accepted R (forms i)) (hok : ∀ m ∈ ms, m.ok)
    (h : Given (forms i) (users i) uid (s.calls i).stage) :
    Given (forms i) (users i) uid ((run step s ms).calls i).stage := by
  induction ms generalizing s with
  | nil => exact h
  | cons m ms ih =>
    rw [run_cons]
    refine ih (fun m' hm => hok m' (List.mem_cons_of_mem m hm)) ?_
    obtain ⟨changes, hnew, ha⟩ := hforms
    by_cases hi : i = m.call
    · subst hi
      have hm : m.ok = true := hok m List.mem_cons_self
      rw [calls_self, hm]
      rw [hnew] at h ha ⊢
      exact h.advance ha
    · rw [calls_other hi]
      exact h

/-- **Nothing is lost exactly where the calls are apart**: of calls with
accepted forms, from any well-kept collection, in any interleaving in which
all remote calls succeed, the clock moves on and every call is let do all it
has to do. -/
theorem registered_iff {ms : List (Move ι)} (hkept : WellKept R s.docs) (hordered : Ordered R s.docs)
    (hpast : Past s.docs s.clock) (hnodup : ∀ c, ((s.lists c).map key).Nodup)
    (hlisted : ∀ c, ∀ r ∈ s.lists c, key r ∈ s.docs.keys)
    (hforms : ∀ i, ∃ changes, forms i = newForm R changes ∧ Accepted R (forms i))
    (hstart : ∀ i, (s.calls i).stage = .add (forms i) (users i)) (hok : ∀ m ∈ ms, m.ok) (hticks : Along step Ticks s ms)
    (hms : Complete s ms) : Registered s.docs forms users (run step s ms) ↔ Along step Apart s ms := by
  have hinv : Inv s.docs forms users s := inv_start hkept hordered hpast hnodup hlisted hstart
  have hrun : ∀ {ms : List (Move ι)}, (∀ m ∈ ms, m.ok) → Along step Ticks s ms → Along step Apart s ms →
      Inv s.docs forms users (run step s ms) := fun hok hticks happart =>
    Along.invariant (fun _ _ h ho => inv_step hforms h ho.1 ho.2.1 ho.2.2) hinv ((Along.of_forall hok).and (hticks.and happart))
  constructor
  · intro hreg
    by_contra happart
    obtain ⟨pre, m, post, rfl, hpre, hnot⟩ := not_along happart
    rw [along_append] at hticks
    have h : Inv s.docs forms users (run step s pre) :=
      hrun (fun m hm => hok m (List.mem_append_left _ hm)) hticks.1 hpre
    -- The call that asks is given the id of a call that holds one.
    simp only [Apart, not_forall, not_not] at hnot
    obtain ⟨hask, j, hj⟩ := hnot
    obtain ⟨uid, hg, hgiven⟩ := h.held hj
    have hne : j ≠ m.call := fun hjm => not_holding hask (hjm ▸ hj)
    have hgiven' : Given (forms m.call) (users m.call) uid ((step (run step s pre) m).calls m.call).stage := by
      have hfits := h.fits m.call
      rw [calls_self]
      generalize ((run step s pre).calls m.call).stage = stage at hfits hask
      have hm : m.ok = true := hok m (by simp)
      cases hfits with
      | asking =>
        simp only [advance, hm, seen, hg]
        exact .stamp
      | _ => cases hask
    rw [← calls_other hne] at hgiven
    have hpost : ∀ m ∈ post, m.ok := fun m hm => hok m (by simp [hm])
    have hrj := given_run (hforms j) hpost hgiven
    have hri := given_run (hforms m.call) hpost hgiven'
    rw [← run_cons, ← run_append] at hrj hri
    obtain ⟨r, hinj, hr⟩ := hreg.made
    rw [(hr j).1] at hrj
    rw [(hr m.call).1] at hri
    exact hne (hinj (hrj.key_eq.trans hri.key_eq.symm))
  · intro happart
    exact (hrun hok hticks happart).registered hms.remaining_eq

end

/-! ## Two registrations at once -/

instance {s : System ι R} {m : Move ι} [Fintype ι] : Decidable (Apart s m) := inferInstanceAs (Decidable (_ → _))

/-- Two clients register a patient each, in an empty collection. -/
def users : Bool → String
  | false => "U"
  | true => "V"

def forms : Bool → DynMap := fun _ => newForm Patient AddPatientScreen.filledIn

def called : System Bool Patient :=
  { docs := .empty, lists := fun _ => [], calls := fun i => ⟨bif i then 1 else 0, .add (forms i) (users i)⟩,
    clock := .reading 0 }

/-- Both ask for the latest id, and then both write. -/
def crossing : List (Move Bool) :=
  [ ⟨false, .reading 1, true⟩, ⟨true, .reading 1, true⟩, ⟨false, .reading 1, true⟩, ⟨true, .reading 2, true⟩,
    ⟨false, .reading 2, true⟩, ⟨true, .reading 2, true⟩, ⟨false, .reading 2, true⟩, ⟨true, .reading 2, true⟩ ]

theorem registered_crossing :
    (WellKept Patient called.docs ∧ Ordered Patient called.docs ∧ Past called.docs called.clock) ∧
      (∀ i, Accepted Patient (forms i)) ∧ (∀ m ∈ crossing, m.ok) ∧ Along step Ticks called crossing ∧ Complete called crossing ∧
      (run step called crossing).docs.keys = ["P-1"] ∧ ¬ Registered called.docs forms users (run step called crossing) := by
  have hkeys : (run step called crossing).docs.keys = ["P-1"] := by decide +kernel
  refine ⟨⟨wellKept_empty, ordered_empty, past_empty⟩, by decide +kernel, by decide, by decide +kernel,
    by decide +kernel, hkeys, fun h => ?_⟩
  -- Two calls cannot have a document each where there is one.
  obtain ⟨r, hinj, hr⟩ := h.made
  have hkey : ∀ i, key (r i) = "P-1" := fun i => by
    have := SortedMap.mem_keys_of_mem (hr i).2.1
    rwa [hkeys, List.mem_singleton] at this
  exact absurd (hinj ((hkey false).trans (hkey true).symm)) (by decide)

/-- One asks once the other has written. -/
def following : List (Move Bool) :=
  [ ⟨false, .reading 1, true⟩, ⟨false, .reading 1, true⟩, ⟨false, .reading 1, true⟩, ⟨true, .reading 1, true⟩,
    ⟨true, .reading 2, true⟩, ⟨false, .reading 2, true⟩, ⟨true, .reading 2, true⟩, ⟨true, .reading 2, true⟩ ]

theorem registered_following : Registered called.docs forms users (run step called following) := by
  have hnodup : ∀ c, ((called.lists c).map key).Nodup := fun _ => List.nodup_nil
  have hlisted : ∀ c, ∀ r ∈ called.lists c, key r ∈ called.docs.keys := fun _ _ hr => by cases hr
  have haccepted : Accepted Patient (newForm Patient AddPatientScreen.filledIn) := by decide +kernel
  have hforms : ∀ i, ∃ changes, forms i = newForm Patient changes ∧ Accepted Patient (forms i) := fun _ =>
    ⟨AddPatientScreen.filledIn, rfl, haccepted⟩
  have happart : Along step Apart called following := by decide +kernel
  exact (registered_iff wellKept_empty ordered_empty past_empty hnodup hlisted hforms (fun _ => rfl) (by decide)
    (by decide +kernel) (by decide +kernel)).2 happart

end Registration
