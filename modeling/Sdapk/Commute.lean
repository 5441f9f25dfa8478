/-
Changes of different patients, made at the same time. An update writes its
document and then replaces its entry; a removal takes out its entry and then
deletes its document. Where the ids are distinct, what the changes leave is
said by which of them have been made, in the collection and in the list, and
not by the order they were made in: any interleaving ends as any sequence
does.
-/
import Sdapk.Effects
import Sdapk.System

open Dart Firestore Entity Screen Runs System Effects

namespace Commute

section

variable {ι R : Type} {client : Nat} {ids : ι → String} {record : ι → Option R} {s : System ι R} {m : Move ι}
  {w w' : World R} {stage stage' : Stage R} {i : ι}

/-! ## A call that changes one record -/

/-- Where the call of a change is, one that saves a record or one that takes the id out. -/
inductive Under (id : String) : Option R → Stage R → Prop
  | update {r : R} : Under id (some r) (.update r)
  | replace {r : R} : Under id (some r) (.replace r)
  | updated {r : R} : Under id (some r) (.updated r)
  | remove : Under id none (.remove id)
  | delete : Under id none (.delete id)
  | removed : Under id none (.removed id)

/-- The change has been made, and nothing was thrown. -/
def Returned : Stage R → Prop
  | .updated _ | .removed _ => True
  | _ => False

theorem Under.returned {id : String} {r : Option R} (h : Under id r stage) (hdone : remaining stage = 0) :
    Returned stage ∧ Stored stage ∧ Listed stage := by
  cases h <;> first | exact ⟨trivial, trivial, trivial⟩ | cases hdone

theorem Under.start {id : String} {r : Option R} (h : Under id r stage) (hstart : remaining stage = 2) :
    ¬ Stored stage ∧ ¬ Listed stage := by
  cases h <;> simp_all [remaining, Stored, Listed]

variable [Screen R]

/-! ## One after the other -/

/-- The same change as one operation. -/
def change (id : String) : Option R → World R → World R × Except Error Unit
  | some r, w => awaited (Notifier.save r {} w)
  | none, w => Notifier.remove id {} w

/-- Each change of a sequence, until one throws. -/
def sequentially {W : Type} (perform : ι → W → W × Except Error Unit) : List ι → W → Except Error W
  | [], w => .ok w
  | i :: order, w =>
    match perform i w with
    | (w', .ok ()) => sequentially perform order w'
    | (_, .error e) => .error e

/-- **One operation**, after others: it does not throw, and makes its change. -/
theorem change_after {S : ι → Prop} (hids : Function.Injective ids) (hkey : ∀ i r, record i = some r → key r = ids i)
    (hnodup : (w.state.map key).Nodup) (hlisted : ∀ i, ids i ∈ w.state.map key)
    (hd : MapAfter doc ids record S w.docs w'.docs) (hl : ListAfter key ids record S w.state w'.state) (hi : ¬ S i) :
    ∃ w'', change (ids i) (record i) w' = (w'', .ok ()) ∧ MapAfter doc ids record (fun j => j = i ∨ S j) w.docs w''.docs ∧
      ListAfter key ids record (fun j => j = i ∨ S j) w.state w''.state := by
  cases hrec : record i with
  | some r =>
    have hmem : key r ∈ w'.state.map key := by
      rw [hkey _ _ hrec]
      exact hl.mem_keys (hlisted i) fun j hj hk => hi (hids hk ▸ hj)
    refine ⟨⟨w'.docs.set (key r) (doc r), Keyed.put key r w'.state⟩, ?_, hd.step hids ?_ ?_, hl.put hids hkey hi hrec⟩
    · simp only [change, Notifier.save, Notifier.replaced_eq_put (hl.nodup hkey hnodup) hmem]
      rfl
    · rw [← hkey _ _ hrec, hrec]
      exact SortedMap.get_set_self
    · intro k hk
      rw [← hkey _ _ hrec] at hk
      exact SortedMap.get_set_other hk
  | none =>
    refine ⟨⟨w'.docs.erase (ids i), Keyed.without key (ids i) w'.state⟩, rfl, hd.step hids ?_ ?_,
      hl.without hids hkey hi hrec⟩
    · rw [hrec, SortedMap.get_erase, if_pos rfl]
      rfl
    · intro k hk
      rw [SortedMap.get_erase, if_neg hk]

theorem sequentially_after (hids : Function.Injective ids) (hkey : ∀ i r, record i = some r → key r = ids i)
    (hnodup : (w.state.map key).Nodup) (hlisted : ∀ i, ids i ∈ w.state.map key) {order : List ι} {S : ι → Prop}
    (hd : MapAfter doc ids record S w.docs w'.docs) (hl : ListAfter key ids record S w.state w'.state)
    (hn : order.Nodup) (hS : ∀ i ∈ order, ¬ S i) :
    ∃ w'', sequentially (fun i => change (ids i) (record i)) order w' = .ok w'' ∧
      MapAfter doc ids record (fun j => j ∈ order ∨ S j) w.docs w''.docs ∧
      ListAfter key ids record (fun j => j ∈ order ∨ S j) w.state w''.state := by
  induction order generalizing S w' with
  | nil => exact ⟨w', rfl, hd.congr (by simp), hl.congr (by simp)⟩
  | cons i order ih =>
    obtain ⟨hni, hn⟩ := List.nodup_cons.1 hn
    obtain ⟨w₁, hw₁, hd₁, hl₁⟩ := change_after hids hkey hnodup hlisted hd hl (hS i List.mem_cons_self)
    have hS₁ : ∀ j ∈ order, ¬ (j = i ∨ S j) := by
      intro j hj hor
      rcases hor with rfl | hSj
      · exact hni hj
      · exact hS j (List.mem_cons_of_mem i hj) hSj
    obtain ⟨w₂, hw₂, hd₂, hl₂⟩ := ih hd₁ hl₁ hn hS₁
    have hor : ∀ j, (j ∈ order ∨ j = i ∨ S j) ↔ (j ∈ i :: order ∨ S j) := by
      intro j
      rw [List.mem_cons, or_left_comm, ← or_assoc]
    refine ⟨w₂, ?_, hd₂.congr hor, hl₂.congr hor⟩
    rw [sequentially, hw₁]
    exact hw₂

/-! ## In any order -/

variable [DecidableEq ι]

/-- The collection and the list of `client` are those of `w` but for the changes that have been made. -/
structure Inv (client : Nat) (ids : ι → String) (record : ι → Option R) (w : World R) (s : System ι R) : Prop where
  client_eq : ∀ i, (s.calls i).client = client
  under : ∀ i, Under (ids i) (record i) (s.calls i).stage
  docs : MapAfter doc ids record (fun i => Stored (s.calls i).stage) w.docs s.docs
  list : ListAfter key ids record (fun i => Listed (s.calls i).stage) w.state (s.lists client)

theorem Inv.moved (h : Inv client ids record w s) (hc : s.calls m.call = ⟨client, stage⟩)
    (ha : advance m.now m.ok (s.seen client) stage = (w', stage')) (hu : Under (ids m.call) (record m.call) stage')
    (hd : MapAfter doc ids record (fun j => Stored (Function.update s.calls m.call ⟨client, stage'⟩ j).stage) w.docs w'.docs)
    (hl : ListAfter key ids record (fun j => Listed (Function.update s.calls m.call ⟨client, stage'⟩ j).stage) w.state
      w'.state) : Inv client ids record w (step s m) := by
  rw [step_eq hc ha]
  refine ⟨fun i => ?_, fun i => ?_, hd, ?_⟩
  · by_cases hi : i = m.call
    · simp [hi]
    · simp [hi, h.client_eq i]
  · by_cases hi : i = m.call
    · simpa [hi] using hu
    · simpa [hi] using h.under i
  · simpa using hl

/-- **One step**: of any of the calls, in any order. -/
theorem inv_step (hids : Function.Injective ids) (hkey : ∀ i r, record i = some r → key r = ids i)
    (hnodup : (w.state.map key).Nodup) (hlisted : ∀ i, ids i ∈ w.state.map key) (h : Inv client ids record w s)
    (hok : m.ok) : Inv client ids record w (step s m) := by
  have hu := h.under m.call
  have hcl := h.client_eq m.call
  rcases hc : s.calls m.call with ⟨c, stage⟩
  rw [hc] at hu hcl
  obtain rfl : c = client := hcl
  have hstage : (s.calls m.call).stage = stage := congrArg Call.stage hc
  generalize hrec : record m.call = r at hu
  cases hu with
  | update =>
    refine h.moved hc rfl (hrec ▸ .replace) (h.docs.step hids ?_ ?_ |>.congr (or_iff_moved trivial))
      (h.list.congr (iff_moved (by rw [hstage]; exact Iff.rfl)))
    · rw [← hkey _ _ hrec, hrec, Notifier.upsert, if_pos hok]
      exact SortedMap.get_set_self
    · intro k hk
      rw [← hkey _ _ hrec] at hk
      rw [Notifier.upsert, if_pos hok]
      exact SortedMap.get_set_other hk
  | @replace r =>
    have hnot : ¬ Listed (s.calls m.call).stage := by rw [hstage]; exact id
    have hmem : key r ∈ (s.lists c).map key := by
      rw [hkey _ _ hrec]
      refine h.list.mem_keys (hlisted m.call) fun j hj hk => ?_
      exact hnot (hids hk ▸ hj)
    have ha : advance m.now m.ok (s.seen c) (.replace r) = (⟨s.docs, Keyed.put key r (s.lists c)⟩, .updated r) := by
      simp only [advance, seen, Notifier.replaced_eq_put (h.list.nodup hkey hnodup) hmem]
    exact h.moved hc ha (hrec ▸ .updated) (h.docs.congr (iff_moved (by rw [hstage]; exact Iff.rfl)))
      ((h.list.put hids hkey hnot hrec).congr (or_iff_moved trivial))
  | updated =>
    exact h.moved hc rfl (hrec ▸ .updated) (h.docs.congr (iff_moved (by rw [hstage])))
      (h.list.congr (iff_moved (by rw [hstage])))
  | remove =>
    have hnot : ¬ Listed (s.calls m.call).stage := by rw [hstage]; exact id
    exact h.moved hc rfl (hrec ▸ .delete) (h.docs.congr (iff_moved (by rw [hstage]; exact Iff.rfl)))
      ((h.list.without hids hkey hnot hrec).congr (or_iff_moved trivial))
  | delete =>
    refine h.moved hc rfl (hrec ▸ .removed) (h.docs.step hids ?_ ?_ |>.congr (or_iff_moved trivial))
      (h.list.congr (iff_moved (by rw [hstage]; exact Iff.rfl)))
    · rw [hrec, Notifier.delete, if_pos hok, SortedMap.get_erase, if_pos rfl]
      rfl
    · intro k hk
      rw [Notifier.delete, if_pos hok, SortedMap.get_erase, if_neg hk]
      rfl
  | removed =>
    exact h.moved hc rfl (hrec ▸ .removed) (h.docs.congr (iff_moved (by rw [hstage])))
      (h.list.congr (iff_moved (by rw [hstage])))

/-- **Any interleaving is any sequence**: at distinct ids of the list. -/
theorem interleaved {order : List ι} {ms : List (Move ι)} (hids : Function.Injective ids)
    (hkey : ∀ i r, record i = some r → key r = ids i) (hnodup : ((s.lists client).map key).Nodup)
    (hlisted : ∀ i, ids i ∈ (s.lists client).map key) (hcalls : ∀ i, (s.calls i).client = client)
    (hstart : ∀ i, Under (ids i) (record i) (s.calls i).stage ∧ remaining (s.calls i).stage = 2)
    (hok : ∀ m ∈ ms, m.ok) (hms : Complete s ms) (horder : order.Nodup) (hall : ∀ i, i ∈ order) :
    (∀ i, Returned ((run step s ms).calls i).stage) ∧
      sequentially (fun i => change (ids i) (record i)) order (s.seen client) = .ok ((run step s ms).seen client) := by
  have hnone : ∀ i, ¬ Stored (s.calls i).stage ∧ ¬ Listed (s.calls i).stage :=
    fun i => (hstart i).1.start (hstart i).2
  have hinv : Inv client ids record (s.seen client) (run step s ms) := by
    refine Along.invariant (fun _ _ h hok => inv_step hids hkey hnodup hlisted h hok) ?_ (Along.of_forall hok)
    exact ⟨hcalls, fun i => (hstart i).1, mapAfter_none fun i => (hnone i).1, listAfter_none fun i => (hnone i).2⟩
  have hend : ∀ i, Returned ((run step s ms).calls i).stage ∧ Stored ((run step s ms).calls i).stage ∧
      Listed ((run step s ms).calls i).stage := fun i => (hinv.under i).returned (hms.remaining_eq i)
  have hd₀ : MapAfter doc ids record (fun _ => False) (s.seen client).docs (s.seen client).docs := mapAfter_none fun _ => id
  have hl₀ : ListAfter key ids record (fun _ => False) (s.seen client).state (s.seen client).state :=
    listAfter_none fun _ => id
  obtain ⟨w, hw, hd, hl⟩ := sequentially_after hids hkey hnodup hlisted hd₀ hl₀ horder fun _ _ => id
  refine ⟨fun i => (hend i).1, hw.trans (congrArg Except.ok ?_)⟩
  have hdocs : w.docs = (run step s ms).docs := hd.unique (hinv.docs.congr fun i => by simp [hall i, (hend i).2.1])
  have hlist : w.state = (run step s ms).lists client := hl.unique (hinv.list.congr fun i => by simp [hall i, (hend i).2.2])
  rw [seen, ← hdocs, ← hlist]

end

/-! ## Changes of patients -/

/-- An update or a removal, with its fixed form data and reading of the clock. -/
inductive Change
  | update (formData : DynMap) (userName : String) (now : DateTime)
  | remove (id : String)

namespace Change

/-- The call, up to its first await. -/
def stage : Change → Stage Patient
  | update formData userName now =>
    if formData = [] then .skipped else updateStage (PatientsNotifier.updatedPatient formData userName now)
  | remove id => .remove id

def perform : Change → World Patient → World Patient × Except Error Unit
  | update formData userName now, w => awaited (PatientsNotifier.updatePatient formData userName now {} w)
  | remove id, w => PatientsNotifier.removePatient id {} w

/-- The change is of the patient of this id: its form data decodes to one. -/
def About (id : String) : Change → Prop
  | update formData userName now => ∃ p, PatientsNotifier.updatedPatient formData userName now = .ok p ∧ p.id = id
  | remove id' => id' = id

/-- The patient an update saves. -/
def record : Change → Option Patient
  | update formData userName now => (PatientsNotifier.updatedPatient formData userName now).toOption
  | remove _ => none

variable {c : Change} {id : String}

/-- What the edit screen of a patient submits is about the patient. -/
theorem about_edit {p : Patient} {changes : DynMap} {userName : String} {now : DateTime}
    (h : Accepted Patient (editForm p changes)) :
    About p.id (update (AddPatientScreen.editData p (editForm p changes)) userName now) := by
  obtain ⟨q, hr, -, hq⟩ := @AddPatientScreen.edited_accepted p changes userName now h
  exact ⟨_, hq, (AddPatientScreen.reads_editData hr).1⟩

/-- No patient is decoded from an empty form. -/
theorem About.form_ne_nil {formData : DynMap} {userName : String} {now : DateTime}
    (h : About id (update formData userName now)) : formData ≠ [] := by
  rintro rfl
  obtain ⟨p, hp, -⟩ := h
  cases hp

theorem About.key_record (h : About id c) : ∀ p, c.record = some p → key p = id := by
  intro p hp
  cases c with
  | update formData userName now =>
    obtain ⟨q, hq, rfl⟩ := h
    simp only [record, hq, Except.toOption, Option.some.injEq] at hp
    rw [← hp]
    rfl
  | remove id' => cases hp

theorem About.under (h : About id c) : Under id c.record c.stage ∧ remaining c.stage = 2 := by
  cases c with
  | update formData userName now =>
    have hne := h.form_ne_nil
    obtain ⟨p, hp, -⟩ := h
    simp only [stage, record, if_neg hne, hp, updateStage, Except.toOption]
    exact ⟨.update, rfl⟩
  | remove id' =>
    obtain rfl : id' = id := h
    exact ⟨.remove, rfl⟩

theorem About.perform_eq (h : About id c) : c.perform = change id c.record := by
  funext w
  cases c with
  | update formData userName now =>
    have hne := h.form_ne_nil
    obtain ⟨p, hp, -⟩ := h
    simp only [perform, PatientsNotifier.updatePatient, Notifier.update, if_neg hne, record, hp, Except.toOption]
    rfl
  | remove id' =>
    obtain rfl : id' = id := h
    rfl

end Change

/-- **Changes of different patients commute.** Calls of updates and removals at
distinct ids of a list, whatever is stored: every interleaving in which all
remote calls succeed and every call is let do all it has to do ends with
every change made and none throwing, and with the collection and the list
that the calls one after the other end with, in any order. -/
theorem changes_commute {ι : Type} [DecidableEq ι] {changes : ι → Change} {ids : ι → String} {order : List ι}
    {client : Nat} {s : System ι Patient} {ms : List (Move ι)} (hids : Function.Injective ids)
    (habout : ∀ i, (changes i).About (ids i)) (hnodup : ((s.lists client).map key).Nodup)
    (hlisted : ∀ i, ids i ∈ (s.lists client).map key) (hcalls : ∀ i, s.calls i = ⟨client, (changes i).stage⟩)
    (hok : ∀ m ∈ ms, m.ok) (hms : Complete s ms) (horder : order.Nodup) (hall : ∀ i, i ∈ order) :
    (∀ i, Returned ((run step s ms).calls i).stage) ∧
      sequentially (fun i => (changes i).perform) order (s.seen client) = .ok ((run step s ms).seen client) := by
  have hperform : (fun i => (changes i).perform) = fun i => change (ids i) (changes i).record :=
    funext fun i => (habout i).perform_eq
  rw [hperform]
  refine interleaved hids (fun i => (habout i).key_record) hnodup hlisted (fun i => ?_) (fun i => ?_) hok hms horder hall
  · rw [hcalls i]
  · rw [hcalls i]
    exact (habout i).under

/-- The address of one patient is changed, the other is removed. -/
def editAndRemove : Bool → Change
  | false =>
    let patient := AddPatientScreen.registered "P-1" (.reading 0)
    .update (AddPatientScreen.editData patient (editForm patient [("address", .str "B")])) "V" (.reading 1)
  | true => .remove "P-2"

def called : System Bool Patient :=
  { docs := .empty, lists := fun _ => [AddPatientScreen.registered "P-2" (.reading 0), AddPatientScreen.registered "P-1" (.reading 0)],
    calls := fun i => ⟨0, (editAndRemove i).stage⟩, clock := .reading 0 }

/-- The entry is taken out while the update is being written. -/
def overlapping : List (Move Bool) := [⟨false, .reading 1, true⟩, ⟨true, .reading 1, true⟩, ⟨false, .reading 1, true⟩, ⟨true, .reading 1, true⟩]

theorem changes_commute_overlapping :
    (∀ i, Returned ((run step called overlapping).calls i).stage) ∧
      sequentially (fun i => (editAndRemove i).perform) [true, false] (called.seen 0) =
        .ok ((run step called overlapping).seen 0) := by
  have habout : ∀ i, (editAndRemove i).About (bif i then "P-2" else "P-1")
    | false => Change.about_edit (by decide +kernel)
    | true => rfl
  have hids : Function.Injective fun i : Bool => bif i then "P-2" else "P-1" := by
    intro i j h
    cases i <;> cases j <;> first | rfl | exact absurd h (by decide)
  exact changes_commute hids habout (by decide) (by decide) (fun _ => rfl) (by decide)
    (by decide +kernel) (by decide) (by decide)

end Commute
