/-
What a collection of records must be for `generateId` to answer
(`WellKept`), and for its answer to be new (`Ordered`): a document with a
greater number stands above one with a smaller number in the order of a
query, so that the latest document carries the greatest number.
-/
import Mathlib.Data.Set.List
import Sdapk.Notifier

namespace Register

open Dart Firestore Entity

variable {R : Type} [Entity R] {docs : Collection} {n : Int} {d : Doc} {t t' : DateTime} {o : Outcome}

/-- Each document stands under its own id, a well-formed one, and is in the
result of a query by `createdAt`. -/
structure WellKept (R : Type) [Entity R] (docs : Collection) : Prop where
  keyed : ∀ e ∈ docs, ∃ n : Int, 0 < n ∧ e.1 = idOf R n
  named : ∀ e ∈ docs, e.2.get "id" = .str e.1
  dated : ∀ e ∈ docs, (e.2.lookup "createdAt").isSome

/-- Where a document stands by `createdAt`. -/
abbrev place (e : String × Doc) : (Nat ×ₗ Int ×ₗ String) ×ₗ String := docKey "createdAt" e

/-- A smaller number stands below a greater one. -/
def Ordered (R : Type) [Entity R] (docs : Collection) : Prop :=
  ∀ n n' d d', (idOf R n, d) ∈ docs → (idOf R n', d') ∈ docs → n < n' → place (idOf R n, d) < place (idOf R n', d')

/-- No document is later than `t`. -/
def Past (docs : Collection) (t : DateTime) : Prop :=
  ∀ e ∈ docs, sortKey (e.2.get "createdAt") ≤ sortKey (stored (.dateTime t))

/-! ## Writing and deleting -/

theorem wellKept_empty : WellKept R .empty := ⟨by simp, by simp, by simp⟩

theorem ordered_empty : Ordered R .empty := fun _ _ _ _ h => absurd h SortedMap.not_mem_empty

theorem past_empty : Past .empty t := fun _ h => absurd h SortedMap.not_mem_empty

theorem WellKept.set {r : R} (h : WellKept R docs) (hn : 0 < n) (hr : key r = idOf R n) :
    WellKept R (docs.set (key r) (doc r)) where
  keyed := by
    intro e he
    rcases SortedMap.mem_set.1 he with rfl | ⟨he, -⟩
    · exact ⟨n, hn, hr⟩
    · exact h.keyed e he
  named := by
    intro e he
    rcases SortedMap.mem_set.1 he with rfl | ⟨he, -⟩
    · simp
    · exact h.named e he
  dated := by
    intro e he
    rcases SortedMap.mem_set.1 he with rfl | ⟨he, -⟩
    · exact doc_dated r
    · exact h.dated e he

theorem WellKept.erase {k : String} (h : WellKept R docs) : WellKept R (docs.erase k) where
  keyed e he := h.keyed e (SortedMap.mem_erase.1 he).1
  named e he := h.named e (SortedMap.mem_erase.1 he).1
  dated e he := h.dated e (SortedMap.mem_erase.1 he).1

theorem Ordered.erase {k : String} (h : Ordered R docs) : Ordered R (docs.erase k) :=
  fun _ _ _ _ he he' => h _ _ _ _ (SortedMap.mem_erase.1 he).1 (SortedMap.mem_erase.1 he').1

/-- The order is kept where the written document stands between the others. -/
theorem Ordered.set (h : Ordered R docs)
    (hlt : ∀ m d', (idOf R m, d') ∈ docs → m < n → place (idOf R m, d') < place (idOf R n, d))
    (hgt : ∀ m d', (idOf R m, d') ∈ docs → n < m → place (idOf R n, d) < place (idOf R m, d')) :
    Ordered R (docs.set (idOf R n) d) := by
  intro m m' e e' he he' hm
  rcases SortedMap.mem_set.1 he with h₁ | ⟨h₁, -⟩ <;> rcases SortedMap.mem_set.1 he' with h₂ | ⟨h₂, -⟩
  · rw [idOf_injective (Prod.mk.inj h₁).1, idOf_injective (Prod.mk.inj h₂).1] at hm
    exact absurd hm (lt_irrefl _)
  · rw [idOf_injective (Prod.mk.inj h₁).1] at hm
    rw [h₁]
    exact hgt m' e' h₂ hm
  · rw [idOf_injective (Prod.mk.inj h₂).1] at hm
    rw [h₂]
    exact hlt m e h₁ hm
  · exact h m m' e e' h₁ h₂ hm

theorem Past.set {k : String} (h : Past docs t) (hd : sortKey (d.get "createdAt") ≤ sortKey (stored (.dateTime t))) :
    Past (docs.set k d) t := by
  intro e he
  rcases SortedMap.mem_set.1 he with rfl | ⟨he, -⟩
  · exact hd
  · exact h e he

theorem Past.erase {k : String} (h : Past docs t) : Past (docs.erase k) t :=
  fun e he => h e (SortedMap.mem_erase.1 he).1

theorem sortKey_date_lt (h : t.isBefore t') : sortKey (stored (.dateTime t)) < sortKey (stored (.dateTime t')) :=
  @sortKey_lt t t' h

theorem Past.mono (h : Past docs t) (ht : t.isBefore t') : Past docs t' :=
  fun e he => (h e he).trans (sortKey_date_lt ht).le

/-- A document made after `t` stands above those not later than `t`. -/
theorem Past.place_lt {e : String × Doc} {k : String} (h : Past docs t) (he : e ∈ docs) (ht : t.isBefore t')
    (hd : d.get "createdAt" = stored (.dateTime t')) : place e < place (k, d) := by
  refine docKey_lt_of_sortKey ((h e he).trans_lt ?_)
  rw [hd]
  exact sortKey_date_lt ht

/-- The order is kept by a document made later than all others, under a greater number. -/
theorem Ordered.set_last (h : Ordered R docs) (hp : Past docs t) (ht : t.isBefore t')
    (hnew : ∀ m d', (idOf R m, d') ∈ docs → m < n) (hd : d.get "createdAt" = stored (.dateTime t')) :
    Ordered R (docs.set (idOf R n) d) :=
  h.set (fun _ _ he _ => hp.place_lt he ht hd) fun m d' he hm => absurd (hnew m d' he) (by omega)

/-- The order is kept by a document that keeps its `createdAt`. -/
theorem Ordered.set_same {d₀ : Doc} (h : Ordered R docs) (h₀ : (idOf R n, d₀) ∈ docs)
    (hd : d.get "createdAt" = d₀.get "createdAt") : Ordered R (docs.set (idOf R n) d) := by
  have hplace : place (idOf R n, d) = place (idOf R n, d₀) := by simp only [place, docKey, hd]
  refine h.set (fun m d' he hm => ?_) fun m d' he hm => ?_
  · rw [hplace]; exact h _ _ _ _ he h₀ hm
  · rw [hplace]; exact h _ _ _ _ h₀ he hm

/-! ## The next id -/

theorem idNumber_idOf (n : Int) : Notifier.idNumber (.str (idOf R n)) = .ok n := by
  simp only [Notifier.idNumber, Dyn.asString_str, bind, Except.bind, idOf_length, if_false, substring_idOf,
    Dyn.parseInt_repr]

theorem nextId_cons {latest : Doc} {rest : List Doc} (h : latest.get "id" = .str (idOf R n)) :
    Notifier.nextId R (latest :: rest) = .ok (idOf R (n + 1)) := by
  simp only [Notifier.nextId, h, idNumber_idOf]
  rfl

/-- **`generateId` answers**: `1` in an empty collection, and otherwise the
number after that of the document above all others. -/
theorem generateId_ok (h : WellKept R docs) (ho : o.query) :
    ((∀ e, e ∉ docs) ∧ Notifier.generateId R o docs = .ok (idOf R 1)) ∨
      ∃ n d, 0 < n ∧ (idOf R n, d) ∈ docs ∧ (∀ e ∈ docs, place e ≤ place (idOf R n, d)) ∧
        Notifier.generateId R o docs = .ok (idOf R (n + 1)) := by
  simp only [Notifier.generateId, ho, if_true]
  rcases query_one h.dated with ⟨hnone, hq⟩ | ⟨⟨k, d⟩, he, hq, hmax⟩
  · rw [hq]
    exact .inl ⟨hnone, rfl⟩
  · obtain ⟨n, hn, rfl⟩ := h.keyed _ he
    rw [hq]
    exact .inr ⟨n, d, hn, he, hmax, nextId_cons (h.named _ he)⟩

/-- The next id is well-formed. -/
theorem generateId_wellFormed (h : WellKept R docs) (ho : o.query) :
    ∃ n, 0 < n ∧ Notifier.generateId R o docs = .ok (idOf R n) := by
  rcases generateId_ok h ho with ⟨-, hg⟩ | ⟨n, -, hn, -, -, hg⟩
  · exact ⟨1, Int.one_pos, hg⟩
  · exact ⟨n + 1, by omega, hg⟩

/-- **The next id is new** where the order is kept: its number is greater than every stored one. -/
theorem generateId_fresh (h : WellKept R docs) (hord : Ordered R docs) (ho : o.query) :
    ∃ n, 0 < n ∧ Notifier.generateId R o docs = .ok (idOf R n) ∧ ∀ m d, (idOf R m, d) ∈ docs → m < n := by
  rcases generateId_ok h ho with ⟨hnone, hg⟩ | ⟨n, d, hn, he, hmax, hg⟩
  · exact ⟨1, Int.one_pos, hg, fun m d he => absurd he (hnone _)⟩
  · refine ⟨n + 1, by omega, hg, fun m d' he' => ?_⟩
    by_contra hlt
    exact absurd (hord n m d d' he he' (by omega)) (not_lt.2 (hmax _ he'))

/-- A new id is no stored name. -/
theorem not_mem_of_fresh (hnew : ∀ m d, (idOf R m, d) ∈ docs → m < n) :
    idOf R n ∉ docs.keys := by
  rw [SortedMap.mem_keys]
  rintro ⟨d, he⟩
  exact absurd (hnew n d he) (lt_irrefl n)

/-! ## What a load finds -/

/-- Each document is a saved record. -/
def Saved (R : Type) [Entity R] (docs : Collection) : Prop := ∀ e ∈ docs, ∃ r : R, e = (key r, doc r)

theorem saved_empty : Saved R .empty := fun _ h => absurd h SortedMap.not_mem_empty

theorem Saved.set {r : R} (h : Saved R docs) : Saved R (docs.set (key r) (doc r)) := by
  intro e he
  rcases SortedMap.mem_set.1 he with rfl | ⟨he, -⟩
  · exact ⟨r, rfl⟩
  · exact h e he

theorem Saved.erase {k : String} (h : Saved R docs) : Saved R (docs.erase k) :=
  fun e he => h e (SortedMap.mem_erase.1 he).1

/-- Saved records under well-formed ids are well kept. -/
theorem Saved.wellKept (h : Saved R docs) (hk : ∀ e ∈ docs, ∃ n : Int, 0 < n ∧ e.1 = idOf R n) : WellKept R docs where
  keyed := hk
  named := by
    intro e he
    obtain ⟨r, rfl⟩ := h e he
    simp
  dated := by
    intro e he
    obtain ⟨r, rfl⟩ := h e he
    exact doc_dated r

theorem mapM_fromMap {rs : List R} : (rs.map doc).mapM fromMap = .ok (rs.map reloaded) := by
  rw [mapM_eq_ok]
  simp [Function.comp_def]

/-- The records of a collection, latest first. -/
theorem Saved.exists_records (h : Saved R docs) :
    ∃ rs : List R, orderByDescending docs "createdAt" = rs.map fun r => (key r, doc r) := by
  have hr : orderByDescending docs "createdAt" ∈ Set.range (List.map fun r : R => (key r, doc r)) := by
    rw [Set.range_list_map]
    intro e he
    obtain ⟨r, rfl⟩ := h e (mem_orderByDescending.1 he).1
    exact ⟨r, rfl⟩
  obtain ⟨rs, hrs⟩ := hr
  exact ⟨rs, hrs.symm⟩

theorem nodup_orderByDescending {field : String} : ((orderByDescending docs field).map (·.1)).Nodup := by
  have hp : ((orderByDescending docs field).map (·.1)).Perm ((docs.entries.filter fun e => (e.2.lookup field).isSome).map (·.1)) :=
    Ranking.descending_perm.map _
  exact hp.nodup_iff.2 (SortedMap.nodup_keys.sublist (List.filter_sublist.map _))

theorem query_eq {rs : List R} {n : Nat} (h : orderByDescending docs "createdAt" = rs.map fun r => (key r, doc r)) :
    query docs "createdAt" n = (rs.take n).map doc := by
  rw [query, h, ← List.map_take, List.map_map]
  rfl

/-- **A load answers**: with the latest 25 records, as saving and loading leaves them. -/
theorem loaded_eq {rs : List R} (h : orderByDescending docs "createdAt" = rs.map fun r => (key r, doc r)) :
    Notifier.loaded R docs = .ok ((rs.take 25).map reloaded) := by
  rw [Notifier.loaded, query_eq h, mapM_fromMap]

/-- What a load lists: stored records, each once. -/
theorem Saved.of_loaded {state : List R} (h : Saved R docs) (hl : Notifier.loaded R docs = .ok state) :
    (state.map key).Nodup ∧ ∀ r ∈ state, ∃ r₀ : R, (key r₀, doc r₀) ∈ docs ∧ r = reloaded r₀ := by
  obtain ⟨rs, hrs⟩ := h.exists_records
  rw [loaded_eq hrs] at hl
  obtain rfl := Except.ok.inj hl
  constructor
  · have hkeys : ((rs.take 25).map reloaded).map key = (rs.map key).take 25 := by simp [Function.comp_def]
    have hnodup : (rs.map key).Nodup := by
      have := @nodup_orderByDescending docs "createdAt"
      rwa [hrs, List.map_map] at this
    rw [hkeys]
    exact hnodup.sublist (List.take_sublist 25 _)
  · intro r hr
    obtain ⟨r₀, hr₀, rfl⟩ := List.mem_map.1 hr
    have he : (key r₀, doc r₀) ∈ orderByDescending docs "createdAt" :=
      hrs ▸ List.mem_map_of_mem (List.mem_of_mem_take hr₀)
    exact ⟨r₀, (mem_orderByDescending.1 he).1, rfl⟩

end Register
