/-
An update that is stored and then finds no entry to replace. It looks for the
entry after its write, in whatever list its client has by then: it throws
where a removal of the same id, or a load that has not got it, came in
between, and in no other case (`finds_along`).
-/
import Sdapk.Codec
import Sdapk.Loadable

namespace Unlisted

open Dart Firestore Entity Screen Runs System

variable {R : Type} [Screen R]

/-- The record of an update in flight. -/
def updating : Stage R → Option R
  | .update r | .replace r => some r
  | _ => none

/-- No call comes to look for an entry that is not there. -/
def Finds (s : App R) (a : Act) : Prop :=
  ∀ i r, ((s.step a).calls i).stage = .unlisted r → (s.calls i).stage = .unlisted r

/-- Updates are made of records whose ids are in their client's list. -/
def StartsListed (s : App R) : Act → Prop
  | .submit _ client i _ _ _ => ∀ r ∈ (s.opened client)[i]?, key r ∈ (s.lists client).map key
  | _ => True

/-- What a call may do to its client's list while updates are in flight: take
out no id of theirs, and assign no list without their ids. -/
def Keeps (s : App R) : Act → Prop
  | .move m =>
    ∀ i, (s.calls i).client = (s.calls m.call).client → ∀ r ∈ updating (s.calls i).stage,
      (s.calls m.call).stage ≠ .remove (key r) ∧
      ∀ (docs : List Doc) (l : List R), (s.calls m.call).stage = .assign docs → docs.mapM fromMap = .ok l → key r ∈ l.map key
  | _ => True

/-- The updates in flight are of listed ids. -/
def Inv (s : App R) : Prop :=
  ∀ i, ∀ r ∈ updating (s.calls i).stage, key r ∈ (s.lists (s.calls i).client).map key

variable {s : App R} {a : Act} {now : DateTime} {ok : Bool} {w : World R} {stage : Stage R} {x : World R × Stage R} {r : R}

/-! ## One step -/

/-- Replacing an entry keeps the ids. -/
theorem map_key_replaced {state state' : List R} (h : Notifier.replaced r state = .ok state') :
    state'.map key = state.map key := by
  unfold Notifier.replaced at h
  split at h
  · next i hi =>
    obtain ⟨hlt, hp⟩ := List.findIdx?_eq_some_iff_getElem.1 hi
    have hk : key state[i] = key r := by simpa using hp.1
    have hi : i < (state.map key).length := by simpa using hlt
    have hget : (state.map key)[i] = key r := by rw [List.getElem_map, hk]
    rw [← Except.ok.inj h, List.map_set, ← hget, List.set_getElem_self]
  · cases h

/-- An id stays in the list unless it is taken out, or a list without it is assigned. -/
theorem mem_keys_advance {id : String} (h : Advances now ok w stage x) (hid : id ∈ w.state.map key)
    (hr : stage ≠ .remove id)
    (ha : ∀ (docs : List Doc) (l : List R), stage = .assign docs → docs.mapM fromMap = .ok l → id ∈ l.map key) :
    id ∈ x.1.state.map key := by
  cases h with
  | assigned hl => exact ha _ _ rfl hl
  | prepended => exact List.mem_cons_of_mem _ hid
  | replaced hrep => exact map_key_replaced hrep ▸ hid
  | @removed id' =>
    have hne : id ≠ id' := fun h => hr (h ▸ rfl)
    obtain ⟨r, hr, hk⟩ := List.mem_map.1 hid
    exact List.mem_map.2 ⟨r, Keyed.mem_without.2 ⟨hr, hk.trans_ne hne⟩, hk⟩
  | _ => exact hid

/-- An update in flight was in flight before. -/
theorem updating_advance (h : Advances now ok w stage x) (hr : updating x.2 = some r) : updating stage = some r := by
  cases h <;> first | exact hr | cases hr

/-- A call that finds no entry was in flight, without one. -/
theorem unlisted_advance (h : Advances now ok w stage x) (hr : x.2 = .unlisted r) :
    stage = .unlisted r ∨ updating stage = some r ∧ key r ∉ w.state.map key := by
  cases h with
  | unlisted hn =>
    obtain rfl := Stage.unlisted.inj hr
    exact .inr ⟨rfl, hn⟩
  | done => exact .inl hr
  | _ => cases hr

/-- An update is begun with a listed id. -/
theorem updating_begins {call client : Nat} (hb : s.Begins a call client stage) (hs : StartsListed s a)
    (hr : updating stage = some r) : key r ∈ (s.lists client).map key := by
  cases hb with
  | update h₀ _ he =>
    obtain rfl := Option.some.inj hr
    rw [(edited_keeps he).1]
    exact hs _ h₀
  | _ => cases hr

/-- A listed id stays in the list, unless the call that proceeds takes it out or assigns a list without it. -/
theorem mem_keys_step {id : String} {client : Nat} (hid : id ∈ (s.lists client).map key)
    (hk : ∀ m, a = .move m → client = (s.calls m.call).client → (s.calls m.call).stage ≠ .remove id ∧
      ∀ (docs : List Doc) (l : List R), (s.calls m.call).stage = .assign docs → docs.mapM fromMap = .ok l → id ∈ l.map key) :
    id ∈ ((s.step a).lists client).map key := by
  have hsteps := s.steps a
  generalize s.step a = s' at hsteps ⊢
  cases hsteps with
  | @moved m =>
    by_cases hc : client = (s.calls m.call).client
    · obtain ⟨hrem, hass⟩ := hk m rfl hc
      have hadv := advances m.now m.ok (s.seen (s.calls m.call).client) (s.calls m.call).stage
      simpa [System.step, hc] using mem_keys_advance hadv (hc ▸ hid) hrem hass
    · simpa [System.step, hc] using hid
  | _ => exact hid

theorem finds_step (hi : Inv s) : Finds s a := by
  intro i r hr
  have hc := s.becomes a i
  generalize (s.step a).calls i = c at hc hr
  cases hc with
  | kept => exact hr
  | moved _ _ hadv =>
    rcases unlisted_advance hadv hr with h | ⟨hup, hn⟩
    · exact h
    · exact absurd (hi _ r hup) hn
  | @begun client stage hb =>
    obtain rfl : stage = .unlisted r := hr
    cases hb

theorem inv_step (hi : Inv s) (hs : StartsListed s a) (hk : Keeps s a) : Inv (s.step a) := by
  intro i r hr
  have hc := s.becomes a i
  generalize (s.step a).calls i = c at hc hr ⊢
  have hkept : updating (s.calls i).stage = some r → key r ∈ ((s.step a).lists (s.calls i).client).map key := by
    refine fun hup => mem_keys_step (hi i r hup) fun m hm hcl => ?_
    subst hm
    exact hk i hcl r hup
  cases hc with
  | kept => exact hkept hr
  | moved _ _ hadv => exact hkept (updating_advance hadv hr)
  | begun hb =>
    refine mem_keys_step (updating_begins hb hs hr) fun m hm _ => ?_
    subst hm
    cases hb <;> cases hr

/-! ## Whole runs -/

/-- **An update finds its entry as long as**, while it is in flight, no call
of its client takes its id out of the list, and no load assigns a list
without it: from any collection and any lists, in every run whose updates are
made of listed ids, and whichever remote calls fail. -/
theorem finds_along {acts : List Act} (hi : Inv s) (hs : Along App.step StartsListed s acts) (hk : Along App.step Keeps s acts) :
    Along App.step Finds s acts :=
  Along.of_invariant (fun _ _ hi h => ⟨finds_step hi, inv_step hi h.1 h.2⟩) hi (hs.and hk)

instance : ∀ a : Act, Decidable (StartsListed s a)
  | .submit _ client i _ _ _ => inferInstanceAs (Decidable (∀ r ∈ (s.opened client)[i]?, key r ∈ (s.lists client).map key))
  | .move _ | .load _ _ | .add _ _ _ _ | .edit _ _ | .remove _ _ _ => .isTrue trivial

/-- The call takes an entry out of the list, or assigns another list. -/
def touches : Stage R → Bool
  | .remove _ | .assign _ => true
  | _ => false

theorem keeps_move {m : Move Nat} (h : touches (s.calls m.call).stage = false) : Keeps s (.move m) := by
  refine fun i hc r hr => ⟨fun he => ?_, fun docs l he => ?_⟩
  · rw [he] at h
    cases h
  · rw [he] at h
    cases h

/-- Two patients stored and listed, and the edit screen of the first open. -/
def twoListed : App Patient :=
  let p := Codec.registeredPatient
  let q := { p with id := "P-2" }
  { docs := (SortedMap.empty.set "P-1" (doc p)).set "P-2" (doc q)
    lists := fun _ => [q, p]
    calls := fun _ => ⟨0, .idle⟩
    clock := .reading 0
    opened := fun _ => [p] }

/-- Between the write and the replacement of an edit of the first patient, `id` is taken out of the list. -/
def removedBetween (id : String) : List Act :=
  [ .submit 0 0 0 [("address", .str "B")] "V" (.reading 1), .remove 1 0 id, .move { call := 0, now := .reading 2 },
    .move { call := 1, now := .reading 3 }, .move { call := 0, now := .reading 4 } ]

/-- The first patient as the edit saves it. -/
def movedPatient : Patient :=
  { Codec.registeredPatient with address := "B", updatedAt := some (.reading 1), updatedBy := some "V" }

/-- The other patient's removal takes nothing from the update. -/
theorem finds_along_other : Along App.step Finds twoListed (removedBetween "P-2") := by
  refine finds_along (fun i r hr => by cases hr) (by decide +kernel) ⟨trivial, trivial, ?_, ?_, ?_, trivial⟩
  · exact keeps_move (by decide +kernel)
  · have hstage : ((run App.step twoListed ((removedBetween "P-2").take 3)).calls 1).stage = .remove "P-2" := by decide +kernel
    have hother : ((run App.step twoListed ((removedBetween "P-2").take 3)).calls 0).stage = .replace movedPatient := by
      decide +kernel
    intro i hc r hr
    refine ⟨fun he => ?_, fun docs l he => by cases hstage.symm.trans he⟩
    have hk : "P-2" = key r := Stage.remove.inj (hstage.symm.trans he)
    match i with
    | 0 =>
      obtain rfl : movedPatient = r := Option.some.inj ((congrArg updating hother).symm.trans hr)
      exact absurd hk (by decide)
    | 1 => cases (congrArg updating hstage).symm.trans hr
    | n + 2 => cases hr
  · exact keeps_move (by decide +kernel)

/-- **An update throws after it has been stored** where its patient is removed meanwhile. -/
theorem throws_removed : Along App.step StartsListed twoListed (removedBetween "P-1") ∧
    (run App.step twoListed (removedBetween "P-1")).docs.get "P-1" = some (doc movedPatient) ∧
    ¬ Along App.step Finds twoListed (removedBetween "P-1") := by
  refine ⟨by decide +kernel, by decide +kernel, fun h => ?_⟩
  have hlast := h.2.2.2.2.1 0 movedPatient (by decide +kernel)
  exact absurd hlast (by decide +kernel)

end Unlisted
