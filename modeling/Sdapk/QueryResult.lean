/-
What a query means: the documents that match, in the query's order, the first
or the last of them if it has a limit. A view that shows what the local store
has shows the query's result, unless the local store has documents whose
acknowledged writes are yet to be sent once more.
-/
import Sdapk.Limit

namespace Client

open Window

variable {q : Query} {docs : Documents} {s : DocumentSet q.documentComparator}

/-- The documents that match, in the query's order. -/
def Query.found (q : Query) (docs : Documents) : List Document :=
  ((docs.entries.map (·.2)).filter q.matchesDocument).mergeSort fun a b => (q.comparator a b).isLE

def Query.result (q : Query) (docs : Documents) : List Document :=
  match q.limitType with
  | .none => q.found docs
  | .first => (q.found docs).take q.limit
  | .last => (q.found docs).drop ((q.found docs).length - q.limit)

theorem Query.mem_found {m : Document} : m ∈ q.found docs ↔ docs.Matching q m := by
  unfold found
  rw [List.mem_mergeSort, List.mem_filter, List.mem_map, Documents.Matching, Documents.get_eq_some]
  refine and_congr_left fun _ => ⟨?_, fun h => ⟨_, h, rfl⟩⟩
  rintro ⟨e, he, rfl⟩
  rwa [← docs.keyed e he]

theorem Query.found_sorted : (q.found docs).Pairwise fun a b => q.comparator a b = .lt := by
  have hdistinct : (q.found docs).Pairwise fun a b => a.key ≠ b.key := by
    have hkeys : ((docs.entries.map (·.2)).filter q.matchesDocument).Pairwise fun a b => a.key ≠ b.key := by
      refine List.Pairwise.filter _ (List.pairwise_map.2 (docs.keys_ne.imp_of_mem fun {a b} ha hb hne => ?_))
      rwa [← docs.keyed a ha, ← docs.keyed b hb]
    exact (List.mergeSort_perm _ _).symm.pairwise hkeys fun h => h.symm
  have hsorted : (q.found docs).Pairwise fun a b => (q.comparator a b).isLE :=
    List.pairwise_mergeSort (fun _ _ _ => Std.TransCmp.isLE_trans) (fun a b => by
      rw [q.comparator_swap b a]
      cases q.comparator a b <;> rfl) _
  refine (hsorted.and hdistinct).imp fun {a b} hab => ?_
  cases hc : q.comparator a b with
  | lt => rfl
  | gt => simp [hc] at hab
  | eq => exact absurd (key_of_comparator_eq hc) hab.2

/-- Documents in the query's order are what it finds, if they are those that match. -/
theorem Query.found_eq_of_perm {l : List Document} (hperm : ((docs.entries.map (·.2)).filter q.matchesDocument).Perm l)
    (hl : l.Pairwise fun a b => q.comparator a b = .lt) : q.found docs = l := by
  refine ((List.mergeSort_perm _ _).trans hperm).eq_of_pairwise (fun a b _ _ hab hba => ?_) Query.found_sorted hl
  rw [q.comparator_swap, hba] at hab
  cases hab

/-- `collection(path).orderBy(field, descending: true).limit(limit)`. -/
def Query.newest (collection field : String) (limit : Nat) : Query where
  path := [collection]
  explicitOrderBys := [⟨[field], .descending⟩]
  limitType := .first
  limit

theorem Query.newest_plain (collection field : String) (limit : Nat) : (newest collection field limit).Plain := by
  have hkey : (⟨[kDocumentKeyPath], .descending⟩ : OrderBy).field.Plain := nofun
  have hfield : (⟨[field], .descending⟩ : OrderBy).field.Plain := nofun
  intro o ho
  change o ∈ if _ then _ else _ at ho
  split at ho
  · exact List.mem_singleton.1 ho ▸ hfield
  · rcases List.mem_cons.1 ho with rfl | ho
    · exact hfield
    · exact List.mem_singleton.1 ho ▸ hkey

theorem Query.newest_limitInRange {collection field : String} {limit : Nat} (h : limit ≠ kNoLimit) :
    (newest collection field limit).LimitInRange := .inr h

/-- The query's result, as what comes first to the view. -/
theorem Query.result_eq (hlim : q.LimitInRange) :
    q.result docs = if q.hasLimitToLast then (q.windowSize.elim (q.found docs).reverse fun n => (q.found docs).reverse.take n).reverse
      else q.windowSize.elim (q.found docs) fun n => (q.found docs).take n := by
  unfold result windowSize hasLimitToLast
  cases hl : q.limitType with
  | none => simp
  | first => simp
  | last =>
    have hne : q.limit ≠ kNoLimit := hlim.resolve_left (by simp [hl])
    simp [hne, List.take_reverse]

/-- **The view is the query's result**, document for document, as far as `==` tells. -/
theorem Shows.result (hq : q.Plain) (hlim : q.LimitInRange) (h : Shows s docs)
    (hcommitted : ∀ m, docs.Matching q m → m.hasCommittedMutations = false) : List.Forall₂ Document.Same s.toList (q.result docs) := by
  -- each document of the view, as the local store has it
  let stored (d : Document) : Document := (docs.get d.key).getD d
  have hstored : ∀ d ∈ s.toList, docs.Matching q (stored d) ∧ d.Same (stored d) := by
    intro d hd
    obtain ⟨m, hm, hkey, hst⟩ := h.stands d hd
    have heq : stored d = m := by simp only [stored, hkey, hm.1, Option.getD_some]
    rw [heq]
    refine ⟨hm, hst.elim (fun hwait => ?_) And.left⟩
    simp [shouldWaitForSyncedDocument, hcommitted m hm] at hwait
  have hsame : List.Forall₂ Document.Same s.toList (s.toList.map stored) :=
    List.forall₂_map_right_iff.2 (List.forall₂_same.2 fun d hd => (hstored d hd).2)
  suffices heq : s.toList.map stored = q.result docs by rwa [heq] at hsame
  have hsub : s.toList.map stored ⊆ q.found docs := fun m hm => by
    obtain ⟨d, hd, rfl⟩ := List.mem_map.1 hm
    exact Query.mem_found.2 (hstored d hd).1
  have hsorted : (s.toList.map stored).Pairwise fun a b => q.comparator a b = .lt := by
    refine List.pairwise_map.2 (s.sorted.imp_of_mem fun {a b} ha hb hlt => ?_)
    rw [← Std.TransCmp.congr_left (((hstored a ha).2).comparator hq), ← Std.TransCmp.congr_right (((hstored b hb).2).comparator hq)]
    exact hlt
  -- what the view hides is what the list of its documents lacks
  have hfills : Fills q.ahead q.windowSize (s.toList.map stored) fun w => w ∈ q.found docs ∧ w ∉ s.toList.map stored := by
    refine ⟨by simpa using h.fills.1, ?_⟩
    rintro w ⟨hw, hns⟩
    have hw := Query.mem_found.1 hw
    have hnone : s.getDocument w.key = none := DocumentSet.getDocument_eq_none.2 fun d hd hk =>
      hns (List.mem_map.2 ⟨d, hd, (hstored d hd).1.unique hw ((hstored d hd).2.key.symm.trans hk)⟩)
    obtain ⟨hsize, hlt⟩ := h.fills.2 w ⟨hw, hnone, hcommitted w hw⟩
    refine ⟨by simpa using hsize, fun v hv => ?_⟩
    obtain ⟨d, hd, rfl⟩ := List.mem_map.1 hv
    rw [← Std.TransCmp.congr_left ((hstored d hd).2.ahead hq)]
    exact hlt d hd
  rw [Query.result_eq hlim]
  split
  · next hlast =>
    have hahead (a b : Document) : q.ahead a b = q.comparator b a := by
      rw [Query.ahead, if_pos hlast, ← q.comparator_swap]
    have hfills' : Fills q.ahead q.windowSize (s.toList.map stored).reverse fun w =>
        w ∈ (q.found docs).reverse ∧ w ∉ (s.toList.map stored).reverse := by simpa [Fills] using hfills
    have hrev := hfills'.eq_take (by simpa [List.subset_def] using hsub) (by simpa [List.pairwise_reverse, hahead] using hsorted)
      (by simpa [List.pairwise_reverse, hahead] using Query.found_sorted)
    rw [← hrev, List.reverse_reverse]
  · next hlast =>
    have hahead : q.ahead = q.comparator := by
      funext a b
      rw [Query.ahead, if_neg hlast]
    rw [hahead] at hfills
    exact hfills.eq_take hsub hsorted Query.found_sorted

end Client
