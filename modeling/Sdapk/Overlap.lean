/-
A load that does not overtake. Where every operation that has changed the
list by the time the load assigns had changed the collection by the time it
read, the load has read what it overwrites, and nothing is undone: the
documents stay as the operations leave them, and the one a registration
makes stands above all others and so among the 25 a load reads.
-/
import Sdapk.Reload

open Dart Firestore Entity Screen Register Runs System Reload

namespace Overlap

variable {ι R : Type}

/-! ## Watching the load read -/

/-- A system, and for each call whether it was past what it does to the collection when the load read. -/
structure Watched (ι R : Type) extends System ι R where
  read : ι → Bool

def Reading : Stage R → Bool
  | .load => true
  | _ => false

/-- A call that adds. -/
def Adding : Stage R → Bool
  | .add _ _ | .stamp _ _ _ | .write _ | .prepend _ | .added _ => true
  | _ => false

/-- A load that assigns, or does not answer. -/
def Loads : Stage R → Prop
  | .load | .assign _ | .loaded | .threw _ => True
  | _ => False

/-- A document made later than `t`. -/
def Later (t : DateTime) (d : Doc) : Prop := sortKey (stored (.dateTime t)) < sortKey (d.get "createdAt")

instance {t : DateTime} {d : Doc} : Decidable (Later t d) := inferInstanceAs (Decidable (_ < _))

variable [Screen R]

/-- A call with everything before it; an update saves no record made later than `t`. -/
def Begins (t : DateTime) : Stage R → Prop
  | .add _ _ | .remove _ | .idle | .skipped | .threw _ => True
  | .update r => ¬ Later t (doc r)
  | _ => False

section

variable [DecidableEq ι]

def watch (load : ι) (s : Watched ι R) (m : Move ι) : Watched ι R where
  toSystem := step s.toSystem m
  read := if m.call = load ∧ Reading (s.calls load).stage then fun i => Stored (s.calls i).stage else s.read

/-- The load has not overtaken: when it assigns, each call that has changed
the list had changed the collection when it read. -/
def Clear (load : ι) (s : Watched ι R) (m : Move ι) : Prop :=
  m.call = load → ∀ l ∈ aboutToAssign (s.calls load).stage, ∀ i, i ≠ load → Listed (s.calls i).stage → s.read i

end

/-! ## What stays in the collection -/

section

variable {docs docs' : Collection} {stage : Stage R} {k : String} {t now : DateTime} {w : World R} {x : World R × Stage R}
  {l : List R} {ok : Bool}

/-- What a call has made of the collection, which had no document later than `t`. -/
def Rests (docs : Collection) (t : DateTime) : Stage R → Prop
  | .write r => Later t (doc r)
  | .prepend r | .added r => Later t (doc r) ∧ docs.get (key r) = some (doc r)
  | .update r => ¬ Later t (doc r)
  | .replace r | .updated r | .unlisted r => docs.get (key r) = some (doc r)
  | .removed id => docs.get id = none
  | _ => True

theorem Begins.rests (h : Begins t stage) : Rests docs t stage := by
  cases stage <;> first | exact h.elim | exact h

theorem rests_congr (hs : ∀ k, subject stage = some k → docs'.get k = docs.get k) (h : Rests docs t stage) :
    Rests docs' t stage := by
  cases stage with
  | prepend r | added r => exact ⟨h.1, (hs _ rfl).trans h.2⟩
  | replace r | updated r | unlisted r | removed id => exact (hs _ rfl).trans h
  | _ => exact h

/-- What a call does to the collection is done to its own record. -/
theorem advances_docs (h : Advances now ok w stage x) (hk : subject stage ≠ some k) : x.1.docs.get k = w.docs.get k := by
  cases h with
  | wrote | updated =>
    simp only [Notifier.upsert]
    split
    · exact SortedMap.get_set_other fun hkr => hk (congrArg some hkr.symm)
    · rfl
  | deleted =>
    simp only [Notifier.delete]
    split
    · rw [SortedMap.get_erase, if_neg fun hid => hk (congrArg some hid.symm)]
    · rfl
  | _ => rfl

theorem advances_rests (h : Advances now true w stage x) (ht : Stamping stage → t.isBefore now) (hr : Rests w.docs t stage) :
    Rests x.1.docs t x.2 := by
  cases h with
  | stamped hnew =>
    have hget := get_doc_createdAt (newRecord_stamped hnew).2.1
    exact (sortKey_date_lt (ht rfl)).trans_eq (congrArg sortKey hget.symm)
  | wrote => exact ⟨hr, SortedMap.get_set_self⟩
  | prepended | done => exact hr
  | updated => exact SortedMap.get_set_self
  | replaced | unlisted => exact hr
  | deleted =>
    simp only [Rests, Notifier.delete, if_true, SortedMap.get_erase]
  | _ => trivial

/-- A document is new only where a call writes it. -/
theorem advances_mem (h : Advances now ok w stage x) {e : String × Doc} (he : e ∈ x.1.docs) :
    e ∈ w.docs ∨ ∃ r, e = (key r, doc r) ∧ (stage = .write r ∧ x.2 = .prepend r ∨ stage = .update r) := by
  cases h with
  | @wrote r =>
    simp only [Notifier.upsert] at he
    split at he
    · rcases SortedMap.mem_set.1 he with rfl | ⟨he, -⟩
      · exact .inr ⟨r, rfl, .inl ⟨rfl, rfl⟩⟩
      · exact .inl he
    · exact .inl he
  | @updated r =>
    simp only [Notifier.upsert] at he
    split at he
    · rcases SortedMap.mem_set.1 he with rfl | ⟨he, -⟩
      · exact .inr ⟨r, rfl, .inr rfl⟩
      · exact .inl he
    · exact .inl he
  | deleted =>
    simp only [Notifier.delete] at he
    split at he
    · exact .inl (SortedMap.mem_erase.1 he).1
    · exact .inl he
  | _ => exact .inl he

theorem adding_of_advances (h : Advances now ok w stage x) (ha : Adding x.2) : Adding stage := by
  cases h with
  | done => exact ha
  | given | stamped | wrote | prepended => rfl
  | _ => cases ha

/-- An add that has its record goes on adding it. -/
theorem advances_adding (h : Advances now ok w stage x) (ha : Adding stage) (hs : subject stage = some k) : Adding x.2 := by
  cases h with
  | wrote | prepended => rfl
  | done => exact ha
  | given | skipped | stamped | ungiven | unstamped => cases hs
  | _ => cases ha

theorem advances_loads (h : Advances now ok w stage x) (hl : Loads stage) : Loads x.2 ∧ x.1.docs = w.docs := by
  cases h with
  | done => exact ⟨hl, rfl⟩
  | read | assigned | unread | undecoded => exact ⟨trivial, rfl⟩
  | _ => exact hl.elim

theorem subject_of_loads (h : Loads stage) : subject stage = none ∧ ¬ Adding stage ∧ ¬ Stamping stage := by
  cases stage <;> first | exact ⟨rfl, Bool.false_ne_true, Bool.false_ne_true⟩ | exact h.elim

theorem advances_reading (h : Advances now ok w stage x) (hl : aboutToAssign x.2 = some l) : Reading stage := by
  cases h with
  | read => rfl
  | done hdone => cases stage <;> first | cases hl | cases hdone
  | _ => cases hl

end

/-! ## What the load reads -/

section

variable {docs : Collection} {stage : Stage R} {t now : DateTime} {w : World R} {x : World R × Stage R} {l : List R} {ok : Bool}

/-- What a load has read shows what a call did to the collection. -/
def Shows (l : List R) : Stage R → Prop
  | .prepend r | .added r => reloaded r ∈ l
  | .replace r | .updated r | .unlisted r => ∀ x ∈ l, key x = key r → x = reloaded r
  | .removed id => id ∉ l.map key
  | _ => False

theorem Shows.agrees (h : Shows l stage) : Agrees l stage := by
  cases stage with
  | added r => exact .inr h
  | updated r | unlisted r => exact fun x hx hk => .inr (h x hx hk)
  | removed id => exact h
  | delete id => exact h.elim
  | _ => trivial

theorem advances_shows (h : Advances now ok w stage x) (hs : Shows l stage) : Shows l x.2 := by
  cases h with
  | prepended | replaced | unlisted | done => exact hs
  | _ => exact hs.elim

theorem mem_of_mapM {ds : List Doc} (hl : ds.mapM fromMap = .ok l) :
    (∀ x ∈ l, ∃ d ∈ ds, fromMap d = .ok x) ∧ ∀ d ∈ ds, ∃ x ∈ l, fromMap d = .ok x := by
  have hmap := mapM_eq_ok.1 hl
  constructor
  · intro x hx
    have hmem : .ok x ∈ ds.map fromMap := hmap ▸ List.mem_map_of_mem hx
    exact List.mem_map.1 hmem
  · intro d hd
    have hmem : fromMap d ∈ l.map .ok := hmap ▸ List.mem_map_of_mem hd
    obtain ⟨x, hx, hdx⟩ := List.mem_map.1 hmem
    exact ⟨x, hx, hdx.symm⟩

/-- What is read is the document of its name. -/
theorem get_of_read (hn : Named R docs) (hl : (query docs "createdAt" 25).mapM fromMap = .ok l) {x : R} (hx : x ∈ l) :
    ∃ d, docs.get (key x) = some d ∧ fromMap d = .ok x := by
  obtain ⟨d, hd, hdx⟩ := (mem_of_mapM hl).1 x hx
  obtain ⟨k, he⟩ := mem_query hd
  have hk : key x = k := hn _ he x hdx
  exact ⟨d, hk ▸ SortedMap.get_eq_some.2 he, hdx⟩

/-- A load reads a record later than all others, and of the others what they are saved as. -/
theorem shows_of_rests (hn : Named R docs) (hl : (query docs "createdAt" 25).mapM fromMap = .ok l)
    (hr : Rests docs t stage) (hs : Stored stage)
    (hlast : Adding stage → ∀ k, subject stage = some k → ∀ e ∈ docs, e.1 ≠ k → ¬ Later t e.2) : Shows l stage := by
  cases stage with
  | prepend r | added r =>
    obtain ⟨hlater, hget⟩ := hr
    have he : (key r, doc r) ∈ docs := SortedMap.get_eq_some.1 hget
    have hmax : ∀ e ∈ docs, e ≠ (key r, doc r) → place e < place (key r, doc r) := by
      intro e he' hne
      have hk : e.1 ≠ key r := fun hk => by
        have hd : docs.get (key r) = some e.2 := hk ▸ SortedMap.get_eq_some.2 he'
        exact hne (Prod.ext hk (Option.some.inj (hd.symm.trans hget)))
      exact docKey_lt_of_sortKey ((not_lt.1 (hlast rfl _ rfl e he' hk)).trans_lt hlater)
    obtain ⟨x, hx, hdx⟩ := (mem_of_mapM hl).2 _ (mem_query_of_greatest he (doc_dated r) hmax (by omega))
    obtain rfl := Except.ok.inj ((fromMap_doc r).symm.trans hdx)
    exact hx
  | replace r | updated r | unlisted r =>
    intro x hx hk
    obtain ⟨d, hget, hdx⟩ := get_of_read hn hl hx
    rw [hk, hr, Option.some.injEq] at hget
    rw [← hget, fromMap_doc] at hdx
    exact (Except.ok.inj hdx).symm
  | removed id =>
    intro hmem
    obtain ⟨x, hx, rfl⟩ := List.mem_map.1 hmem
    obtain ⟨d, hget, -⟩ := get_of_read hn hl hx
    cases hget.symm.trans hr
  | _ => exact hs.elim

end

/-! ## One step -/

section

variable {load : ι} {t : DateTime} {m : Move ι}

/-- At most one call adds, and its record alone is made later than `t`. -/
structure Inv (load : ι) (t : DateTime) (s : System ι R) : Prop where
  loads : Loads (s.calls load).stage
  clock : ¬ s.clock.isBefore t
  named : Named R s.docs
  rests : ∀ i, Rests s.docs t (s.calls i).stage
  later : ∀ e ∈ s.docs, Later t e.2 → ∃ i, Adding (s.calls i).stage ∧ subject (s.calls i).stage = some e.1
  one : ∀ i j, Adding (s.calls i).stage → Adding (s.calls j).stage → i = j

variable {s : System ι R}

/-- Calls that start with everything before them. -/
theorem inv_start (hload : (s.calls load).stage = .load) (hn : Named R s.docs) (hpast : Past s.docs s.clock)
    (hbegin : ∀ i, i ≠ load → Begins s.clock (s.calls i).stage)
    (hone : ∀ i j, Adding (s.calls i).stage → Adding (s.calls j).stage → i = j) : Inv load s.clock s where
  loads := hload ▸ trivial
  clock := lt_irrefl _
  named := hn
  rests i := by
    by_cases hi : i = load
    · rw [hi, hload]
      trivial
    · exact (hbegin i hi).rests
  later e he hl := absurd hl (not_lt.2 (hpast e he))
  one := hone

/-- A load that reads sees what each call has done to the collection by then. -/
theorem Inv.shows {l : List R} (h : Inv load t s) (hl : (query s.docs "createdAt" 25).mapM fromMap = .ok l) {i : ι}
    (hs : Stored (s.calls i).stage) : Shows l (s.calls i).stage := by
  refine shows_of_rests h.named hl (h.rests i) hs fun ha k hk e he hne hlater => ?_
  obtain ⟨j, haj, hj⟩ := h.later e he hlater
  rw [h.one j i haj ha, hk] at hj
  exact hne (Option.some.inj hj).symm

theorem distinct_of_loads (h : Loads (s.calls load).stage) (hd : Distinct load s) {i j : ι} (hij : i ≠ j) {k : String}
    (hk : subject (s.calls i).stage = some k) : subject (s.calls j).stage ≠ some k := by
  intro hj
  have hload : ∀ i, subject (s.calls i).stage = some k → i ≠ load := fun i hi hil => by
    rw [hil, (subject_of_loads h).1] at hi
    cases hi
  exact hij (hd i j (hload i hk) (hload j hj) (by rw [hk]; rfl) (hk.trans hj.symm))

variable [DecidableEq ι]

theorem Inv.step (h : Inv load t s) (hd : Distinct load s) (hok : m.ok) (hticks : Ticks s m) : Inv load t (step s m) := by
  have ha := advances m.now m.ok (s.seen (s.calls m.call).client) (s.calls m.call).stage
  have hself := @calls_self ι R _ _ s m
  generalize hx : advance m.now m.ok (s.seen (s.calls m.call).client) (s.calls m.call).stage = x at ha hself
  have hdocs : (System.step s m).docs = x.1.docs := by simp [System.step, hx]
  have hclock : (System.step s m).clock = readings s.clock m.now (s.calls m.call).stage := rfl
  have hadd : ∀ i, Adding ((System.step s m).calls i).stage → Adding (s.calls i).stage := by
    intro i hi
    by_cases him : i = m.call
    · rw [him, hself] at hi
      rw [him]
      exact adding_of_advances ha hi
    · rwa [calls_other him] at hi
  have hafter : Stamping (s.calls m.call).stage → t.isBefore m.now := fun hs =>
    (not_lt.1 h.clock).trans_lt (hticks hs)
  refine ⟨?_, ?_, ?_, fun i => ?_, fun e he hl => ?_, fun i j hi hj => h.one i j (hadd i hi) (hadd j hj)⟩
  · by_cases hm : load = m.call
    · rw [hm, hself]
      exact (advances_loads ha (hm ▸ h.loads)).1
    · rw [calls_other hm]
      exact h.loads
  · rw [hclock]
    cases hst : (s.calls m.call).stage with
    | stamp form user uid => exact (hafter (by rw [hst]; rfl)).not_gt
    | _ => exact h.clock
  · rw [hdocs]
    exact advances_named ha h.named
  · rw [hdocs]
    by_cases him : i = m.call
    · rw [him, hself]
      rw [hok] at ha
      exact advances_rests ha hafter (h.rests m.call)
    · rw [calls_other him]
      exact rests_congr (fun k hk => advances_docs ha (distinct_of_loads h.loads hd him hk)) (h.rests i)
  · rw [hdocs] at he
    rcases advances_mem ha he with he | ⟨r, rfl, ⟨hst, hx2⟩ | hst⟩
    · obtain ⟨i, hai, hi⟩ := h.later e he hl
      refine ⟨i, ?_⟩
      by_cases him : i = m.call
      · subst him
        rw [hself]
        exact ⟨advances_adding ha hai hi, advances_subject ha hi⟩
      · rw [calls_other him]
        exact ⟨hai, hi⟩
    · refine ⟨m.call, ?_⟩
      rw [hself, hx2]
      exact ⟨rfl, rfl⟩
    · have hr := h.rests m.call
      rw [hst] at hr
      exact absurd hl hr

/-- What the load is about to assign shows what it had read of each call. -/
structure Watches (load : ι) (t : DateTime) (s : Watched ι R) : Prop where
  inv : Inv load t s.toSystem
  shows : ∀ l ∈ aboutToAssign (s.calls load).stage, ∀ i, s.read i → Shows l (s.calls i).stage

theorem Watches.step {s : Watched ι R} (h : Watches load t s) (hd : Distinct load s.toSystem) (hok : m.ok)
    (hticks : Ticks s.toSystem m) : Watches load t (watch load s m) := by
  refine ⟨h.inv.step hd hok hticks, fun l hl i hi => ?_⟩
  have ha := advances m.now m.ok (s.seen (s.calls m.call).client) (s.calls m.call).stage
  change aboutToAssign ((System.step s.toSystem m).calls load).stage = some l at hl
  show Shows l ((System.step s.toSystem m).calls i).stage
  by_cases hm : m.call = load
  · -- The load has just read.
    rw [← hm, calls_self] at hl
    have hreading : Reading (s.calls load).stage := hm ▸ advances_reading ha hl
    have hs : Stored (s.calls i).stage := by simpa [watch, hm, hreading] using hi
    have hne : i ≠ m.call := by
      intro him
      rw [him, hm] at hs
      generalize (s.calls load).stage = stage at hs hreading
      cases stage <;> first | exact hs.elim | cases hreading
    rw [calls_other hne]
    exact h.inv.shows (advances_read ha hl) hs
  · rw [calls_other (Ne.symm hm)] at hl
    have hi : s.read i = true := by simpa [watch, hm] using hi
    have hshows := h.shows l hl i hi
    by_cases him : i = m.call
    · subst him
      rw [calls_self]
      exact advances_shows ha hshows
    · rw [calls_other him]
      exact hshows

/-! ## Whole runs -/

/-- Before the load has read. -/
def unread (s : System ι R) : Watched ι R := { s with read := fun _ => false }

theorem along_watch (P : System ι R → Move ι → Prop) {v : Watched ι R} {ms : List (Move ι)} :
    Along (watch load) (fun v m => P v.toSystem m) v ms ↔ Along System.step P v.toSystem ms := along_map fun _ _ => rfl

/-- **A load that does not overtake has read what it overwrites.** -/
theorem reflects_along {ms : List (Move ι)} (hload : (s.calls load).stage = .load) (hnamed : Named R s.docs)
    (hpast : Past s.docs s.clock) (hbegin : ∀ i, i ≠ load → Begins s.clock (s.calls i).stage)
    (hone : ∀ i j, Adding (s.calls i).stage → Adding (s.calls j).stage → i = j) (hok : ∀ m ∈ ms, m.ok)
    (hticks : Along step Ticks s ms) (hdistinct : Along step (fun s _ => Distinct load s) s ms)
    (hclear : Along (watch load) (Clear load) (unread s) ms) : Along step (Reflects load) s ms := by
  have hstart : Watches load s.clock (unread s) := by
    refine ⟨inv_start hload hnamed hpast hbegin hone, fun l hl => ?_⟩
    have hl : aboutToAssign (s.calls load).stage = some l := hl
    rw [hload] at hl
    cases hl
  have hwatched : Along (watch load) (fun v m => Ticks v.toSystem m ∧ Distinct load v.toSystem) (unread s) ms :=
    (along_watch fun s m => Ticks s m ∧ Distinct load s).2 (hticks.and hdistinct)
  have hreflects : Along (watch load) (fun v m => Reflects load v.toSystem m) (unread s) ms := by
    refine Along.of_invariant (fun v m h hall => ?_) hstart (hclear.and ((Along.of_forall hok).and hwatched))
    obtain ⟨hc, ho, ht, hd⟩ := hall
    refine ⟨fun hm l hl i hi hlisted => ?_, h.step hd ho ht⟩
    exact (h.shows l hl i (hc hm l hl i hi hlisted)).agrees
  exact (along_watch (Reflects load)).1 hreflects

/-- **What a load undoes.** Of one load among any operations of a client on
different records, in any interleaving in which the load assigns and every
call is let do all it has to do: nothing is undone exactly where the load has
read what it overwrites; and so it is where it does not overtake, at most one
call adds, and all remote calls succeed. -/
theorem undoes_nothing {client : Nat} {ms : List (Move ι)} (hnamed : Named R s.docs)
    (hclient : ∀ i, (s.calls i).client = client) (hload : (s.calls load).stage = .load)
    (hothers : ∀ i, i ≠ load → ¬ Loading (s.calls i).stage) (hloaded : ((run step s ms).calls load).stage = .loaded)
    (hdistinct : Distinct load (run step s ms)) (hms : Complete s ms) :
    (Kept load client (run step s ms) ↔ Along step (Reflects load) s ms) ∧
    (Past s.docs s.clock → (∀ i, i ≠ load → Begins s.clock (s.calls i).stage) →
      (∀ i j, Adding (s.calls i).stage → Adding (s.calls j).stage → i = j) → (∀ m ∈ ms, m.ok) → Along step Ticks s ms →
      Along (watch load) (Clear load) (unread s) ms → Kept load client (run step s ms)) := by
  have hiff := kept_iff hnamed hclient hload hothers hloaded hdistinct hms
  refine ⟨hiff, fun hpast hbegin hone hok hticks hclear => hiff.2 ?_⟩
  exact reflects_along hload hnamed hpast hbegin hone hok hticks (distinct_along hdistinct) hclear

end

/-! ## A load among three operations -/

instance [DecidableEq R] {l : List R} : ∀ stage, Decidable (Agrees l stage)
  | .added r => inferInstanceAs (Decidable (r ∈ l ∨ reloaded r ∈ l))
  | .updated r | .unlisted r => inferInstanceAs (Decidable (∀ x ∈ l, key x = key r → x = r ∨ x = reloaded r))
  | .delete id | .removed id => inferInstanceAs (Decidable (id ∉ l.map key))
  | .idle | .load | .assign _ | .add _ _ | .stamp _ _ _ | .write _ | .prepend _ | .update _ | .replace _ | .remove _
  | .loaded | .skipped | .threw _ => .isTrue trivial

instance [DecidableEq ι] [Fintype ι] {load : ι} {s : System ι R} : Decidable (Distinct load s) :=
  inferInstanceAs (Decidable (∀ i j, i ≠ load → j ≠ load → _ → _ → _))

instance [DecidableEq ι] [Fintype ι] {load : ι} {s : Watched ι R} {m : Move ι} : Decidable (Clear load s m) :=
  inferInstanceAs (Decidable (_ → ∀ l ∈ aboutToAssign (s.calls load).stage, ∀ i, i ≠ load → _ → _))

/-- Of two patients, one is edited and one removed while another is registered and the list is loaded. -/
def called : System (Fin 4) Patient :=
  let p := AddPatientScreen.registered "P-1" (.reading 1)
  let q := AddPatientScreen.registered "P-2" (.reading 2)
  { docs := (SortedMap.empty.set (key p) (doc p)).set (key q) (doc q)
    lists := fun _ => [q, p]
    calls := fun i => ⟨0, match i with
      | 0 => .load
      | 1 => .add (newForm Patient AddPatientScreen.filledIn) "U"
      | 2 => .update { p with address := "B" }
      | 3 => .remove "P-2"⟩
    clock := .reading 2 }

theorem named_called : Named Patient called.docs := by
  have hempty : Named Patient .empty := fun _ he => absurd he SortedMap.not_mem_empty
  exact hempty.set.set

/-- The load reads first and assigns last. -/
def around : List (Move (Fin 4)) := [0, 1, 1, 1, 1, 2, 2, 3, 3, 0].map fun call => ⟨call, .reading 3, true⟩

/-- The registered patient is not in the list, the edited one is as before, and the removed one is back. -/
theorem undone_around : Named Patient called.docs ∧ (∀ m ∈ around, m.ok) ∧ Complete called around ∧
    ((run step called around).calls 0).stage = .loaded ∧ Distinct 0 (run step called around) ∧
    ∀ i, i ≠ 0 → ¬ Agrees ((run step called around).lists 0) ((run step called around).calls i).stage :=
  ⟨named_called, by decide, by decide +kernel, by decide +kernel, by decide +kernel, by decide +kernel⟩

/-- The load reads what the others have written and deleted. -/
def between : List (Move (Fin 4)) := [1, 3, 3, 1, 1, 2, 0, 1, 2, 0].map fun call => ⟨call, .reading 3, true⟩

theorem undoes_nothing_between : Along step (Reflects 0) called between ∧ Kept 0 0 (run step called between) := by
  have hothers : ∀ i, i ≠ 0 → ¬ Loading (called.calls i).stage
    | 0, h => absurd rfl h
    | 1, _ | 2, _ | 3, _ => id
  have hbegin : ∀ i, i ≠ 0 → Begins called.clock (called.calls i).stage
    | 0, h => absurd rfl h
    | 1, _ | 3, _ => trivial
    | 2, _ => by
      show ¬ Later _ _
      decide +kernel
  have hpast : Past called.docs called.clock :=
    (past_empty.set (k := key _) (by decide +kernel)).set (by decide +kernel)
  obtain ⟨hiff, hclear⟩ := undoes_nothing named_called (fun _ => rfl) rfl hothers (by decide +kernel) (by decide +kernel)
    (by decide +kernel : Complete called between)
  have hkept : Kept 0 0 (run step called between) :=
    hclear hpast hbegin (by decide) (by decide) (by decide +kernel) (by decide +kernel)
  exact ⟨hiff.1 hkept, hkept⟩

end Overlap
