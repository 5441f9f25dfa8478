/-
The list as an image of the collection. In a session without a load the list
is at every moment the documents in descending order of `createdAt`, record
for record: an add is prepended and is the latest document, an edit keeps its
`createdAt` and its place, a remove takes out the one and the other.
-/
import Sdapk.Editing

namespace Mirror

open Dart Firestore Entity Screen Session Register Runs

variable {R : Type} [Screen R] {w : World R} {s : Session R} {e : Event} {r r' : R} {t : DateTime}

/-- A record as it is stored. -/
def entry (r : R) : String × Doc := (key r, doc r)

/-- The list, as it would be stored, is the sequence of all documents, latest first. -/
structure Mirrors (w : World R) : Prop where
  sequence : orderByDescending w.docs "createdAt" = w.state.map entry
  all : ∀ e ∈ w.docs, e ∈ orderByDescending w.docs "createdAt"
  nodup : (w.state.map key).Nodup

/-- The list has every document, with its date, and stands in descending order. -/
structure Inv (w : World R) (clock : DateTime) : Prop where
  inv : Freshness.Inv w clock
  dated : ∀ r ∈ w.state, (audit r).createdAt ≠ none
  listed : ∀ e ∈ w.docs, ∃ r ∈ w.state, e = entry r
  descending : (w.state.map fun r => place (entry r)).Pairwise (fun a b => b < a)

theorem inv_start {clock : DateTime} : Inv (start R clock).toWorld clock where
  inv := Freshness.inv_start
  dated r hr := by cases hr
  listed e he := by cases he
  descending := .nil

theorem Inv.mem_docs (h : Inv w t) {e : String × Doc} : e ∈ w.docs ↔ ∃ r ∈ w.state, e = entry r := by
  refine ⟨h.listed e, ?_⟩
  rintro ⟨r, hr, rfl⟩
  exact h.inv.tidy.dated r hr (h.dated r hr)

theorem Inv.mirrors (h : Inv w t) : Mirrors w := by
  have hfield : (w.docs.entries.filter fun e => (e.2.lookup "createdAt").isSome) = w.docs.entries :=
    List.filter_eq_self.2 h.inv.tidy.kept.dated
  have hnodup : w.docs.entries.Nodup := SortedMap.nodup_keys.of_map _
  have hstate : (w.state.map entry).Nodup := by
    refine List.Nodup.of_map (·.1) ?_
    rw [List.map_map]
    exact h.inv.tidy.nodup
  have hperm : w.docs.entries.Perm (w.state.map entry) := by
    refine (List.perm_ext_iff_of_nodup hnodup hstate).2 fun e => ?_
    rw [← SortedMap.mem_def, h.mem_docs, List.mem_map]
    exact exists_congr fun r => and_congr_right fun _ => eq_comm
  refine ⟨?_, fun e he => mem_orderByDescending.2 ⟨he, h.inv.tidy.kept.dated e he⟩, h.inv.tidy.nodup⟩
  rw [orderByDescending, hfield]
  exact Ranking.descending_eq_of_perm hperm (List.pairwise_map.2 (List.pairwise_map.1 h.descending))

/-! ## What each operation keeps -/

theorem place_congr (hk : key r' = key r) (hca : (audit r').createdAt = (audit r).createdAt) :
    place (entry r') = place (entry r) := by
  simp only [place, docKey, entry, get_doc_createdAt hca, get_doc_createdAt rfl, hk]

theorem Inv.mono {t' : DateTime} (h : Inv w t) (ht : t.isBefore t') : Inv w t' :=
  ⟨h.inv.mono ht, h.dated, h.listed, h.descending⟩

theorem Inv.added (h : Inv w t) (ht : t.isBefore e.now) (ho : e.outcome = {}) (hr : add? e w = some r) :
    Inv ⟨w.docs.set (key r) (doc r), r :: w.state⟩ e.now := by
  obtain ⟨n, hn, hk, hca, hlt⟩ := Freshness.add?_fresh h.inv ho hr
  refine ⟨h.inv.added ht ho hr, fun r₀ hr₀ => ?_, fun e' he' => ?_, List.pairwise_cons.2 ⟨fun q hq => ?_, h.descending⟩⟩
  · rcases List.mem_cons.1 hr₀ with rfl | hr₀
    · exact hca.trans_ne (Option.some_ne_none _)
    · exact h.dated r₀ hr₀
  · rcases SortedMap.mem_set.1 he' with rfl | ⟨he', -⟩
    · exact ⟨r, List.mem_cons_self, rfl⟩
    · obtain ⟨r₀, hr₀, rfl⟩ := h.listed e' he'
      exact ⟨r₀, List.mem_cons_of_mem _ hr₀, rfl⟩
  · obtain ⟨r₀, hr₀, rfl⟩ := List.mem_map.1 hq
    exact h.inv.past.place_lt (h.mem_docs.2 ⟨r₀, hr₀, rfl⟩) ht (get_doc_createdAt hca)

theorem Inv.edited (h : Inv w t) (hmem : r ∈ w.state) (hk : key r' = key r)
    (hca : (audit r').createdAt = (audit r).createdAt) :
    Inv ⟨w.docs.set (key r') (doc r'), Keyed.put key r' w.state⟩ t := by
  have hplaces : (Keyed.put key r' w.state).map (fun r => place (entry r)) = w.state.map fun r => place (entry r) := by
    rw [Keyed.put, List.map_map]
    refine List.map_congr_left fun b hb => ?_
    simp only [Function.comp_apply]
    split
    · next hbk =>
      -- The ids are distinct, so the entry replaced is the one edited.
      obtain rfl := List.inj_on_of_nodup_map h.inv.tidy.nodup hb hmem (hbk.trans hk)
      exact place_congr hk hca
    · rfl
  refine ⟨h.inv.edited hmem hk hca (.inl (h.dated r hmem)), fun r₀ hr₀ => ?_, fun e' he' => ?_, ?_⟩
  · rcases Keyed.mem_put.1 hr₀ with ⟨rfl, -⟩ | ⟨hr₀, -⟩
    · exact hca.trans_ne (h.dated r hmem)
    · exact h.dated r₀ hr₀
  · rcases SortedMap.mem_set.1 he' with rfl | ⟨he', hne⟩
    · exact ⟨r', Keyed.mem_put.2 (.inl ⟨rfl, hk ▸ List.mem_map_of_mem hmem⟩), rfl⟩
    · obtain ⟨r₀, hr₀, rfl⟩ := h.listed e' he'
      exact ⟨r₀, Keyed.mem_put.2 (.inr ⟨hr₀, hne⟩), rfl⟩
  · simp only [hplaces]
    exact h.descending

theorem Inv.removed {id : String} (h : Inv w t) : Inv ⟨w.docs.erase id, Keyed.without key id w.state⟩ t := by
  refine ⟨h.inv.removed, fun r hr => h.dated r (Keyed.mem_without.1 hr).1, fun e' he' => ?_, ?_⟩
  · obtain ⟨he', hne⟩ := SortedMap.mem_erase.1 he'
    obtain ⟨r, hr, rfl⟩ := h.listed e' he'
    exact ⟨r, Keyed.mem_without.2 ⟨hr, hne⟩, rfl⟩
  · exact h.descending.sublist (List.filter_sublist.map _)

theorem Inv.step (h : Inv s.toWorld s.clock) (hs : Succeeds s e) (hload : e.op ≠ .load) :
    Inv (step s e).toWorld (step s e).clock := by
  obtain ⟨ho, ht⟩ := hs
  show Inv (perform e s.toWorld).1 e.now
  have hE := perform_effect e s.toWorld
  generalize perform e s.toWorld = x at hE
  cases hE with
  | idle => exact h.mono ht
  | loaded hop => exact absurd hop hload
  | added hr =>
    rw [Notifier.upsert, ho]
    exact h.added ht ho hr
  | @edited r r' state he hrep =>
    obtain ⟨i, changes, -, hi, -, hr'⟩ := edit?_eq_some he
    obtain ⟨hk, hca, -⟩ := edited_keeps hr'
    have hmem := List.mem_of_getElem? hi
    rw [Notifier.replaced_eq_put h.inv.tidy.nodup (hk ▸ List.mem_map_of_mem hmem)] at hrep
    obtain rfl := Except.ok.inj hrep
    rw [Notifier.upsert, ho]
    exact (h.edited hmem hk hca).mono ht
  | removed =>
    rw [Notifier.delete, ho]
    exact h.removed.mono ht

/-! ## Patients -/

/-- An edit finds its entry, and succeeds. -/
def Finds (s : Session Patient) (e : Event) : Prop :=
  ∀ p changes userName, Editing.Edits s e p changes userName →
    (s.state.findIdx? fun p' => p'.id = p.id).isSome ∧ (perform e s.toWorld).2 = .ok ()

theorem finds (s : Session Patient) (e : Event) : Finds s e := by
  intro p changes userName hedit
  obtain ⟨q, -, -, hq⟩ := hedit.edit?_eq
  obtain ⟨i, -, hi, -⟩ := hedit
  constructor
  · rw [List.findIdx?_isSome, List.any_eq_true]
    exact ⟨p, List.mem_of_getElem? hi, by simp⟩
  · have hE := perform_effect e s.toWorld
    generalize perform e s.toWorld = x at hE
    cases hE with
    | idle _ hedit => rw [hq] at hedit; cases hedit
    | _ => rfl

/-- **Without a load, the list is an exact image of the collection** after
every operation of a session, and every edit finds its entry. -/
theorem mirrors_along (clock : DateTime) (es : List Event)
    (h : Along step (fun s e => Succeeds s e ∧ e.op ≠ .load) (start Patient clock) es) :
    Along step (fun s e => Mirrors (step s e).toWorld ∧ Finds s e) (start Patient clock) es :=
  Along.of_invariant (I := fun s => Inv s.toWorld s.clock)
    (fun s e hi hok => have hi' := hi.step hok.1 hok.2; ⟨⟨hi'.mirrors, finds s e⟩, hi'⟩) inv_start h

/-- Two patients are registered, the earlier one is edited, and the later one removed. -/
theorem mirrors_removed :
    Along step (fun s e => Mirrors (step s e).toWorld ∧ Finds s e) (start Patient (.reading 0))
      [ { op := .add AddPatientScreen.filledIn, user := "U", now := .reading 1 },
        { op := .add AddPatientScreen.filledIn, user := "U", now := .reading 2 },
        { op := .edit 1 [("address", .str "B")], user := "V", now := .reading 3 },
        { op := .remove "P-2", user := "V", now := .reading 4 } ] :=
  mirrors_along _ _ (by decide +kernel)

end Mirror
