/-
Registrations and the records they must not overwrite. In a session the
latest document carries the greatest number, and so the next id is new, as
long as no edit takes a record's `createdAt` away: which an edit of an entry
that has been through a load does (`KeepsOrder`). `registers_along` is the
run theorem, `overwritten` a run that loses a patient.
-/
import Sdapk.Session

namespace Freshness

open Dart Firestore Entity Forms Screen Session Register Runs

variable {R : Type} [Screen R]

/-- An add is given an id that is no stored document's, and leaves every
stored document as it is. -/
def Registers (s : Session R) (e : Event) : Prop :=
  ∀ changes, e.op = .add changes → ∃ uid, Notifier.generateId R e.outcome s.docs = .ok uid ∧ uid ∉ s.docs.keys ∧
    ∀ k ∈ s.docs.keys, (step s e).docs.get k = s.docs.get k

/-- An edit keeps the documents in the order of their numbers: the entry has
its `createdAt`, or no document with a smaller number would stand above the
edited one for its having none. -/
def KeepsOrder (s : Session R) (e : Event) : Prop :=
  ∀ p ∈ edit? e s.toWorld, (audit p.1).createdAt ≠ none ∨
    ∀ e' ∈ s.docs.entries, numberOf e'.1 < numberOf (key p.1) → e'.2.get "createdAt" = .null ∧ e'.1 < key p.1

instance {s : Session R} {e : Event} : Decidable (KeepsOrder s e) :=
  inferInstanceAs (Decidable (∀ p ∈ edit? e s.toWorld, _))

/-! ## The invariant -/

/-- The documents stand in the order of their numbers, and none is later than the clock. -/
structure Inv (w : World R) (clock : DateTime) : Prop where
  tidy : Tidy w
  ordered : Ordered R w.docs
  past : Past w.docs clock

theorem inv_start {clock : DateTime} : Inv (start R clock).toWorld clock := ⟨tidy_empty, ordered_empty, past_empty⟩

variable {w : World R} {t t' : DateTime} {r r' : R} {e : Event}

theorem Inv.mono (h : Inv w t) (ht : t.isBefore t') : Inv w t' := ⟨h.tidy, h.ordered, h.past.mono ht⟩

theorem add?_fresh (h : Inv w t) (ho : e.outcome = {}) (hr : add? e w = some r) :
    ∃ n, 0 < n ∧ key r = idOf R n ∧ (audit r).createdAt = some e.now ∧ ∀ m d, (idOf R m, d) ∈ w.docs → m < n := by
  obtain ⟨changes, user, uid, -, -, hg, -, hnew⟩ := add?_eq_some hr
  obtain ⟨n, hn, hg', hlt⟩ := generateId_fresh h.tidy.kept h.ordered (o := e.outcome) (by rw [ho])
  obtain rfl := Except.ok.inj (hg.symm.trans hg')
  obtain ⟨hk, hca, -⟩ := newRecord_stamped hnew
  exact ⟨n, hn, hk, hca, hlt⟩

theorem Inv.added (h : Inv w t) (ht : t.isBefore e.now) (ho : e.outcome = {}) (hr : add? e w = some r) :
    Inv ⟨w.docs.set (key r) (doc r), r :: w.state⟩ e.now := by
  obtain ⟨n, hn, hk, hca, hlt⟩ := add?_fresh h ho hr
  have hd := get_doc_createdAt hca
  refine ⟨h.tidy.added hn hk (hk ▸ not_mem_of_fresh hlt), ?_, (h.past.mono ht).set (by rw [hd]; exact le_rfl)⟩
  rw [hk]
  exact h.ordered.set_last h.past ht hlt hd

/-- An edit that keeps the order. The saved record has the entry's `createdAt`:
a date the document has too, or none. -/
theorem Inv.edited (h : Inv w t) (hmem : r ∈ w.state) (hk : key r' = key r)
    (hca : (audit r').createdAt = (audit r).createdAt)
    (hord : (audit r).createdAt ≠ none ∨
      ∀ e' ∈ w.docs.entries, numberOf e'.1 < numberOf (key r) → e'.2.get "createdAt" = .null ∧ e'.1 < key r) :
    Inv ⟨w.docs.set (key r') (doc r'), Keyed.put key r' w.state⟩ t := by
  have hd := get_doc_createdAt hca
  refine ⟨h.tidy.edited hmem hk, ?_, ?_⟩
  · obtain ⟨d₀, h₀⟩ := SortedMap.mem_keys.1 (h.tidy.stored r hmem)
    obtain ⟨n, -, hid⟩ := h.tidy.kept.keyed _ h₀
    simp only at hid
    rw [hk, hid]
    rw [hid] at h₀
    cases hc : (audit r).createdAt with
    | some t₀ =>
      have hdoc := h.tidy.dated r hmem (by simp [hc])
      rw [hid] at hdoc
      exact h.ordered.set_same hdoc (by rw [hd, get_doc_createdAt rfl])
    | none =>
      rw [hc] at hd
      refine h.ordered.set (fun m d' he hm => ?_) fun m d' he hm => ?_
      · obtain ⟨hnull, hlt⟩ := (hord.resolve_left (by simp [hc])) _ he (by simpa [hid] using hm)
        exact docKey_lt.2 (.inr ⟨by rw [hd]; exact congrArg sortKey hnull, hid ▸ hlt⟩)
      · have hle : sortKey ((doc r').get "createdAt") ≤ sortKey (d₀.get "createdAt") := hd ▸ sortKey_null_le _
        exact (docKey_le_of_sortKey hle).trans_lt (h.ordered n m d₀ d' h₀ he hm)
  · refine h.past.set ?_
    by_cases hc : (audit r).createdAt = none
    · rw [hd, hc]
      exact sortKey_null_le _
    · rw [hd, ← get_doc_createdAt rfl]
      exact h.past _ (h.tidy.dated r hmem hc)

theorem Inv.removed {id : String} (h : Inv w t) : Inv ⟨w.docs.erase id, Keyed.without key id w.state⟩ t :=
  ⟨h.tidy.removed, h.ordered.erase, h.past.erase⟩

/-- The invariant is kept by whatever an operation does, as long as it keeps the order. -/
theorem inv_step {s : Session R} (h : Inv s.toWorld s.clock) (hs : Succeeds s e) (hord : KeepsOrder s e) :
    Inv (step s e).toWorld (step s e).clock := by
  obtain ⟨ho, ht⟩ := hs
  show Inv (perform e s.toWorld).1 e.now
  have hE := perform_effect e s.toWorld
  generalize perform e s.toWorld = x at hE
  cases hE with
  | idle => exact h.mono ht
  | loaded _ hl => exact (Inv.mono ⟨h.tidy.loaded hl, h.ordered, h.past⟩ ht)
  | added hr =>
    rw [Notifier.upsert, ho]
    exact h.added ht ho hr
  | @edited r r' state he hrep =>
    obtain ⟨i, changes, -, hi, -, hr'⟩ := edit?_eq_some he
    obtain ⟨hk, hca, -⟩ := edited_keeps hr'
    have hmem := List.mem_of_getElem? hi
    rw [Notifier.replaced_eq_put h.tidy.nodup (hk ▸ List.mem_map_of_mem hmem)] at hrep
    obtain rfl := Except.ok.inj hrep
    rw [Notifier.upsert, ho]
    exact (h.edited hmem hk hca (hord _ he)).mono ht
  | removed =>
    rw [Notifier.delete, ho]
    exact h.removed.mono ht

theorem registers_step {s : Session R} (h : Inv s.toWorld s.clock) (hs : Succeeds s e) : Registers s e := by
  intro changes hop
  obtain ⟨ho, -⟩ := hs
  obtain ⟨n, -, hg, hlt⟩ := generateId_fresh h.tidy.kept h.ordered (o := e.outcome) (by rw [ho])
  have hnew : idOf R n ∉ s.docs.keys := not_mem_of_fresh hlt
  refine ⟨idOf R n, hg, hnew, fun k hk => ?_⟩
  show (perform e s.toWorld).1.docs.get k = s.docs.get k
  have hE := perform_effect e s.toWorld
  generalize perform e s.toWorld = x at hE
  cases hE with
  | idle => rfl
  | loaded => rfl
  | @added r hr =>
    obtain ⟨_, _, _, -, -, hg', -, hr'⟩ := add?_eq_some hr
    obtain rfl := Except.ok.inj (hg.symm.trans hg')
    rw [Notifier.upsert, ho]
    exact SortedMap.get_set_other fun hkr => hnew ((newRecord_stamped hr').1 ▸ hkr ▸ hk)
  | edited he =>
    obtain ⟨_, _, hop', -⟩ := edit?_eq_some he
    rw [hop] at hop'
    cases hop'
  | removed hop' =>
    rw [hop] at hop'
    cases hop'

theorem registers_run {clock : DateTime} {es : List Event}
    (h : Along step (fun s e => Succeeds s e ∧ KeepsOrder s e) (start R clock) es) :
    Along step Registers (start R clock) es :=
  Along.of_invariant (I := fun s => Inv s.toWorld s.clock)
    (fun _ _ hi hok => ⟨registers_step hi hok.1, inv_step hi hok.1 hok.2⟩) inv_start h

/-- **No registration overwrites a record** in a session whose edits keep the
order of the documents: of patients, and of doctors. -/
theorem registers_along (clock : DateTime) (es : List Event) :
    (Along step (fun s e => Succeeds s e ∧ KeepsOrder s e) (start Patient clock) es →
      Along step Registers (start Patient clock) es) ∧
    (Along step (fun s e => Succeeds s e ∧ KeepsOrder s e) (start Staff clock) es →
      Along step Registers (start Staff clock) es) :=
  ⟨registers_run, registers_run⟩

/-- Two patients, a reload, an edit that changes nothing of the later one, and one more patient. -/
def overwriting : List Event :=
  [ { op := .add AddPatientScreen.filledIn, user := "U", now := .reading 1 },
    { op := .add AddPatientScreen.filledIn, user := "U", now := .reading 2 },
    { op := .load, user := "U", now := .reading 3 },
    { op := .edit 0 [], user := "U", now := .reading 4 },
    { op := .add AddPatientScreen.filledIn, user := "U", now := .reading 5 } ]

/-- **A registration overwrites a record**: the edit after the reload takes
`P-2` its `createdAt`, so `P-1` is the latest document and `P-2` the next id. -/
theorem overwritten :
    Along step Succeeds (start Patient (.reading 0)) overwriting ∧
      ¬ Along step Registers (start Patient (.reading 0)) overwriting := by
  refine ⟨by decide +kernel, fun h => ?_⟩
  obtain ⟨-, -, -, -, hlast, -⟩ := h
  obtain ⟨uid, hg, hnew, -⟩ := hlast _ rfl
  have hg' : Notifier.generateId Patient {} (run step (start Patient (.reading 0)) (overwriting.take 4)).docs = .ok "P-2" := by
    decide +kernel
  obtain rfl := Except.ok.inj (hg.symm.trans hg')
  exact hnew (by decide +kernel)

/-- The run without the reload registers three patients, and one like it three doctors. -/
theorem registers_unloaded :
    Along step Registers (start Patient (.reading 0))
        [ { op := .add AddPatientScreen.filledIn, user := "U", now := .reading 1 },
          { op := .edit 0 [], user := "U", now := .reading 2 },
          { op := .add AddPatientScreen.filledIn, user := "U", now := .reading 3 } ] ∧
      Along step Registers (start Staff (.reading 0))
        [ { op := .add AddDoctorScreen.filledIn, user := "U", now := .reading 1 },
          { op := .edit 0 [], user := "U", now := .reading 2 },
          { op := .add AddDoctorScreen.filledIn, user := "U", now := .reading 3 } ] :=
  ⟨(registers_along _ _).1 (by decide +kernel), (registers_along _ _).2 (by decide +kernel)⟩

end Freshness
