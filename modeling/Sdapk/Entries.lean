/-
Lists of entries in strictly increasing key order, the order given by a
comparison that need not tell apart every two keys: entries whose keys compare
`eq` are the same entry to it. `put` and `without` are what any ordered map's
insert and erase come to, `get` and `rank` what its lookups come to, and the
lemmas say how each splits over the list around one entry, the shape that a
search tree's node gives.
-/
import Mathlib.Data.List.Basic
import Mathlib.Data.List.Pairwise
import Mathlib.Data.Bool.Basic

namespace Entries

open Std

variable {κ ν : Type*} (cmp : κ → κ → Ordering)

/-- Every entry's key is below the keys after it. -/
def Sorted (l : List (κ × ν)) : Prop := l.Pairwise fun a b => cmp a.1 b.1 = .lt

/-- The entries with `k` holding `v`: an entry of the same key keeps its key. -/
def put (k : κ) (v : ν) : List (κ × ν) → List (κ × ν)
  | [] => [(k, v)]
  | e :: l => match cmp e.1 k with
    | .lt => e :: put k v l
    | .eq => (e.1, v) :: l
    | .gt => (k, v) :: e :: l

/-- The entries other than `k`'s. -/
def without (k : κ) (l : List (κ × ν)) : List (κ × ν) := l.filter fun e => cmp k e.1 != .eq

/-- The entry of `k`. -/
def find (k : κ) (l : List (κ × ν)) : Option (κ × ν) := l.find? fun e => cmp k e.1 == .eq

/-- The value at `k`. -/
def get (k : κ) (l : List (κ × ν)) : Option ν := (find cmp k l).map (·.2)

/-- How many entries are below `k`. -/
def rank (k : κ) (l : List (κ × ν)) : Nat := l.countP fun e => cmp k e.1 == .gt

variable {cmp} {k : κ} {v : ν} {e : κ × ν} {l r : List (κ × ν)}

/-! ## Around one entry -/

theorem sorted_split : Sorted cmp (l ++ e :: r) ↔
    Sorted cmp l ∧ Sorted cmp r ∧ (∀ a ∈ l, cmp a.1 e.1 = .lt) ∧ (∀ b ∈ r, cmp e.1 b.1 = .lt) ∧
      ∀ a ∈ l, ∀ b ∈ r, cmp a.1 b.1 = .lt := by
  simp only [Sorted, List.pairwise_append, List.pairwise_cons, List.mem_cons, forall_eq_or_imp]
  exact ⟨fun ⟨hl, ⟨her, hr⟩, hlr⟩ => ⟨hl, hr, fun a ha => (hlr a ha).1, her, fun a ha => (hlr a ha).2⟩,
    fun ⟨hl, hr, hle, her, hlr⟩ => ⟨hl, ⟨her, hr⟩, fun a ha => ⟨hle a ha, hlr a ha⟩⟩⟩

theorem Sorted.left (h : Sorted cmp (l ++ e :: r)) : Sorted cmp l := (sorted_split.1 h).1

theorem Sorted.right (h : Sorted cmp (l ++ e :: r)) : Sorted cmp r := (sorted_split.1 h).2.1

theorem Sorted.below (h : Sorted cmp (l ++ e :: r)) : ∀ a ∈ l, cmp a.1 e.1 = .lt := (sorted_split.1 h).2.2.1

theorem Sorted.above (h : Sorted cmp (l ++ e :: r)) : ∀ b ∈ r, cmp e.1 b.1 = .lt := (sorted_split.1 h).2.2.2.1

theorem without_self (h : ∀ a ∈ l, cmp k a.1 ≠ .eq) : without cmp k l = l := by
  simpa [without] using h

theorem without_append : without cmp k (l ++ r) = without cmp k l ++ without cmp k r := List.filter_append ..

theorem without_cons_eq (h : cmp k e.1 = .eq) : without cmp k (e :: r) = without cmp k r := by
  simp [without, h]

theorem without_cons_ne (h : cmp k e.1 ≠ .eq) : without cmp k (e :: r) = e :: without cmp k r := by
  simp [without, h]

theorem mem_without {a : κ × ν} : a ∈ without cmp k l ↔ a ∈ l ∧ cmp k a.1 ≠ .eq := by simp [without]

theorem without_sorted (h : Sorted cmp l) : Sorted cmp (without cmp k l) := List.Pairwise.filter _ h

theorem put_split_gt (h : cmp e.1 k = .gt) : put cmp k v (l ++ e :: r) = put cmp k v l ++ e :: r := by
  induction l with
  | nil => simp [put, h]
  | cons a l ih =>
    simp only [List.cons_append, put]
    split
    · rw [ih, List.cons_append]
    · rfl
    · rfl

/-- A key above all of a list's first part is put in the rest. -/
theorem put_split (hl : ∀ a ∈ l, cmp a.1 k = .lt) : put cmp k v (l ++ r) = l ++ put cmp k v r := by
  induction l with
  | nil => rfl
  | cons a l ih =>
    rw [List.cons_append, put, hl a (by simp), ih fun b hb => hl b (by simp [hb])]
    rfl

theorem mem_put_new {a : κ × ν} (h : ∀ b ∈ l, cmp b.1 k ≠ .eq) : a ∈ put cmp k v l ↔ a = (k, v) ∨ a ∈ l := by
  induction l with
  | nil => simp [put]
  | cons b l ih =>
    have ih := ih fun b hb => h b (List.mem_cons_of_mem _ hb)
    simp only [put]
    split
    · simp only [List.mem_cons, ih]
      exact or_left_comm
    · next hb => exact absurd hb (h b List.mem_cons_self)
    · simp only [List.mem_cons]

theorem length_put : (put cmp k v l).length ≤ l.length + 1 := by
  induction l with
  | nil => simp [put]
  | cons e l ih =>
    simp only [put]
    split
    · simpa using ih
    · simp
    · simp

theorem find_some {e : κ × ν} (h : find cmp k l = some e) : e ∈ l ∧ cmp k e.1 = .eq :=
  ⟨List.mem_of_find?_eq_some h, by simpa using List.find?_some h⟩

variable [TransCmp cmp]

theorem put_split_lt (h : Sorted cmp (l ++ e :: r)) (he : cmp e.1 k = .lt) :
    put cmp k v (l ++ e :: r) = l ++ e :: put cmp k v r := by
  rw [put_split fun a ha => TransCmp.lt_trans (h.below a ha) he, put, he]

theorem put_split_eq (h : Sorted cmp (l ++ e :: r)) (he : cmp e.1 k = .eq) :
    put cmp k v (l ++ e :: r) = l ++ (e.1, v) :: r := by
  rw [put_split fun a ha => TransCmp.lt_of_lt_of_eq (h.below a ha) he, put, he]

theorem without_below (h : Sorted cmp (l ++ e :: r)) (he : (cmp k e.1).isGE) : without cmp k l = l :=
  without_self fun a ha hk => by
    have := TransCmp.lt_of_eq_of_lt hk (h.below a ha)
    simp [this] at he

theorem without_above (h : Sorted cmp (l ++ e :: r)) (he : (cmp k e.1).isLE) : without cmp k r = r :=
  without_self fun b hb hk => by
    have := TransCmp.lt_of_isLE_of_lt he (h.above b hb)
    simp [this] at hk

theorem without_split_lt (h : Sorted cmp (l ++ e :: r)) (he : cmp k e.1 = .lt) :
    without cmp k (l ++ e :: r) = without cmp k l ++ e :: r := by
  rw [without_append, without_cons_ne (by simp [he]), without_above h (by simp [he])]

theorem without_split_gt (h : Sorted cmp (l ++ e :: r)) (he : cmp k e.1 = .gt) :
    without cmp k (l ++ e :: r) = l ++ e :: without cmp k r := by
  rw [without_append, without_cons_ne (by simp [he]), without_below h (by simp [he])]

theorem without_split_eq (h : Sorted cmp (l ++ e :: r)) (he : cmp k e.1 = .eq) :
    without cmp k (l ++ e :: r) = l ++ r := by
  rw [without_append, without_cons_eq he, without_below h (by simp [he]), without_above h (by simp [he])]

/-! ## The entries after `put` -/

theorem mem_put {a : κ × ν} (h : a ∈ put cmp k v l) : a ∈ l ∨ cmp a.1 k = .eq := by
  induction l with
  | nil => simp only [put, List.mem_singleton] at h; simp [h, ReflCmp.compare_self]
  | cons b l ih =>
    simp only [put] at h
    split at h
    · rcases List.mem_cons.1 h with rfl | h
      · simp
      · exact (ih h).imp_left (List.mem_cons_of_mem _)
    · next hb =>
      rcases List.mem_cons.1 h with rfl | h
      · exact .inr hb
      · exact .inl (List.mem_cons_of_mem _ h)
    · rcases List.mem_cons.1 h with rfl | h
      · simp [ReflCmp.compare_self]
      · exact .inl h

theorem put_sorted (h : Sorted cmp l) : Sorted cmp (put cmp k v l) := by
  induction l with
  | nil => simp [put, Sorted]
  | cons e l ih =>
    obtain ⟨he, hl⟩ := List.pairwise_cons.1 h
    simp only [put]
    split
    · next hk =>
      refine List.pairwise_cons.2 ⟨fun a ha => ?_, ih hl⟩
      rcases mem_put ha with ha | ha
      · exact he a ha
      · exact TransCmp.lt_of_lt_of_eq hk (OrientedCmp.eq_symm ha)
    · exact List.pairwise_cons.2 ⟨he, hl⟩
    · next hk =>
      have hk' := OrientedCmp.lt_of_gt hk
      refine List.pairwise_cons.2 ⟨fun a ha => ?_, h⟩
      rcases List.mem_cons.1 ha with rfl | ha
      · exact hk'
      · exact TransCmp.lt_trans hk' (he a ha)

/-! ## Lookups -/

theorem find_split_lt (h : Sorted cmp (l ++ e :: r)) (he : cmp k e.1 = .lt) :
    find cmp k (l ++ e :: r) = find cmp k l := by
  have hr : r.find? (fun e => cmp k e.1 == .eq) = none := by
    simp only [List.find?_eq_none, beq_iff_eq]
    intro b hb hk
    simp [TransCmp.lt_trans he (h.above b hb)] at hk
  simp [find, List.find?_append, he, hr]

theorem find_below (h : Sorted cmp (l ++ e :: r)) (he : (cmp k e.1).isGE) : find cmp k l = none := by
  simp only [find, List.find?_eq_none, beq_iff_eq]
  intro a ha hk
  have := TransCmp.lt_of_eq_of_lt hk (h.below a ha)
  simp [this] at he

theorem find_split_gt (h : Sorted cmp (l ++ e :: r)) (he : cmp k e.1 = .gt) :
    find cmp k (l ++ e :: r) = find cmp k r := by
  have := find_below h (k := k) (by simp [he])
  simp only [find] at this ⊢
  simp [List.find?_append, this, he]

theorem find_split_eq (h : Sorted cmp (l ++ e :: r)) (he : cmp k e.1 = .eq) :
    find cmp k (l ++ e :: r) = some e := by
  have := find_below h (k := k) (by simp [he])
  simp only [find] at this ⊢
  simp [List.find?_append, this, he]

theorem find_of_mem (h : Sorted cmp l) (he : e ∈ l) (hk : cmp k e.1 = .eq) : find cmp k l = some e := by
  obtain ⟨a, b, rfl⟩ := List.append_of_mem he
  exact find_split_eq h hk

/-- The first entry not below `k` is its own, if there is one. -/
theorem find_eq_head? (h : Sorted cmp l) :
    ((l.filter fun e => cmp k e.1 != .gt).head?.filter fun e => cmp k e.1 == .eq) = find cmp k l := by
  induction l with
  | nil => rfl
  | cons e l ih =>
    obtain ⟨he, hl⟩ := List.pairwise_cons.1 h
    cases hk : cmp k e.1 with
    | gt => simpa [find, hk] using ih hl
    | eq => simp [find, hk]
    | lt =>
      have : find cmp k l = none := by
        simp only [find, List.find?_eq_none, beq_iff_eq]
        intro b hb hkb
        simp [TransCmp.lt_trans hk (he b hb)] at hkb
      simp only [find] at this
      simp [find, hk, this]

theorem get_put {k' : κ} (h : Sorted cmp l) :
    get cmp k' (put cmp k v l) = if cmp k' k = .eq then some v else get cmp k' l := by
  induction l with
  | nil => by_cases hk : cmp k' k = .eq <;> simp [put, get, find, hk]
  | cons e l ih =>
    obtain ⟨he, hl⟩ := List.pairwise_cons.1 h
    simp only [put]
    split
    · next hk =>
      by_cases hke : cmp k' e.1 = .eq
      · have : cmp k' k ≠ .eq := by simp [TransCmp.congr_left hke, hk]
        simp [get, find, hke, this]
      · simpa [get, find, hke] using ih hl
    · next hk =>
      by_cases hke : cmp k' e.1 = .eq
      · simp [get, find, hke, TransCmp.eq_trans hke hk]
      · have : cmp k' k ≠ .eq := by rwa [← TransCmp.congr_right hk]
        simp [get, find, hke, this]
    · by_cases hke : cmp k' k = .eq <;> simp [get, find, hke]

theorem get_without {k' : κ} : get cmp k' (without cmp k l) = if cmp k' k = .eq then none else get cmp k' l := by
  induction l with
  | nil => simp [without, get, find]
  | cons e l ih =>
    by_cases he : cmp k e.1 = .eq
    · rw [without_cons_eq he, ih]
      by_cases hk : cmp k' k = .eq
      · simp [hk]
      · have : cmp k' e.1 ≠ .eq := by rwa [← TransCmp.congr_right he]
        simp [get, find, hk, this]
    · rw [without_cons_ne he]
      by_cases hk : cmp k' e.1 = .eq
      · have : cmp k' k ≠ .eq := fun h => he (TransCmp.eq_trans (OrientedCmp.eq_symm h) hk)
        simp [get, find, hk, this]
      · simpa [get, find, hk] using ih

theorem get_congr {k' : κ} (h : cmp k k' = .eq) : get cmp k l = get cmp k' l := by
  simp only [get, find, TransCmp.congr_left h]

theorem get_eq_some [LawfulEqCmp cmp] (h : Sorted cmp l) : get cmp k l = some v ↔ (k, v) ∈ l := by
  rw [get, Option.map_eq_some_iff]
  constructor
  · rintro ⟨e, he, rfl⟩
    obtain ⟨hmem, hk⟩ := find_some he
    rwa [LawfulEqCmp.eq_of_compare hk]
  · exact fun he => ⟨_, find_of_mem h he ReflCmp.compare_self, rfl⟩

theorem foldl_put_sorted {s : List (κ × ν)} (h : Sorted cmp s) : Sorted cmp (l.foldl (fun s e => put cmp e.1 e.2 s) s) := by
  induction l generalizing s with
  | nil => exact h
  | cons e l ih => exact ih (put_sorted h)

/-- Entries put over others. -/
theorem get_foldl_put {s : List (κ × ν)} (hl : Sorted cmp l) (h : Sorted cmp s) :
    get cmp k (l.foldl (fun s e => put cmp e.1 e.2 s) s) = (get cmp k l).or (get cmp k s) := by
  induction l generalizing s with
  | nil => rfl
  | cons e l ih =>
    obtain ⟨he, hl⟩ := List.pairwise_cons.1 hl
    rw [List.foldl_cons, ih hl (put_sorted h), get_put h]
    split
    · next hk =>
      have hnone : find cmp k l = none := by
        simp only [find, List.find?_eq_none, beq_iff_eq]
        intro b hb hkb
        simp [TransCmp.lt_of_eq_of_lt hk (he b hb)] at hkb
      rw [get, hnone, get, find, List.find?_cons_of_pos (by simp [hk])]
      rfl
    · next hk =>
      have hcons : get cmp k (e :: l) = get cmp k l := by simp [get, find, hk]
      rw [hcons]

theorem rank_split_lt (h : Sorted cmp (l ++ e :: r)) (he : cmp k e.1 = .lt) :
    rank cmp k (l ++ e :: r) = rank cmp k l := by
  have hr : r.countP (fun e => cmp k e.1 == .gt) = 0 := by
    simp only [List.countP_eq_zero, beq_iff_eq]
    intro b hb
    simp [TransCmp.lt_trans he (h.above b hb)]
  simp [rank, he, hr]

theorem rank_below (h : Sorted cmp (l ++ e :: r)) (he : (cmp k e.1).isGE) : rank cmp k l = l.length := by
  simp only [rank, List.countP_eq_length, beq_iff_eq]
  intro a ha
  exact OrientedCmp.gt_of_lt (TransCmp.lt_of_lt_of_isLE (h.below a ha) (OrientedCmp.isLE_of_isGE he))

theorem rank_split_gt (h : Sorted cmp (l ++ e :: r)) (he : cmp k e.1 = .gt) :
    rank cmp k (l ++ e :: r) = l.length + 1 + rank cmp k r := by
  have hl := rank_below h (k := k) (by simp [he])
  simp only [rank] at hl ⊢
  rw [List.countP_append, hl, List.countP_cons, he]
  simp; omega

theorem rank_split_eq (h : Sorted cmp (l ++ e :: r)) (he : cmp k e.1 = .eq) :
    rank cmp k (l ++ e :: r) = l.length := by
  have hr : r.countP (fun e => cmp k e.1 == .gt) = 0 := by
    simp only [List.countP_eq_zero, beq_iff_eq]
    intro b hb
    simp [TransCmp.lt_of_eq_of_lt he (h.above b hb)]
  have hl := rank_below h (k := k) (by simp [he])
  simp only [rank] at hl ⊢
  rw [List.countP_append, hl, List.countP_cons, he, hr]
  simp

/-- The place of `k`'s entry is the number of entries before it. -/
theorem findIdx?_eq (h : Sorted cmp l) :
    (l.findIdx? fun e => cmp k e.1 == .eq) = (find cmp k l).map fun _ => rank cmp k l := by
  induction l with
  | nil => rfl
  | cons e l ih =>
    obtain ⟨he, hl⟩ := List.pairwise_cons.1 h
    have ih := ih hl
    have above (hk : (cmp k e.1).isLE) : ∀ b ∈ l, cmp k b.1 = .lt := fun b hb => TransCmp.lt_of_isLE_of_lt hk (he b hb)
    simp only [find] at ih ⊢
    cases hk : cmp k e.1 with
    | gt =>
      rw [List.findIdx?_cons, List.find?_cons_of_neg (by simp [hk])]
      simp only [hk, ih, rank, List.countP_cons, reduceCtorEq, beq_iff_eq, if_true, Option.map_map]
      rfl
    | eq =>
      have h0 : l.countP (fun e => cmp k e.1 == .gt) = 0 := by
        simp only [List.countP_eq_zero, beq_iff_eq]
        intro b hb
        simp [above (by simp [hk]) b hb]
      simp [List.findIdx?_cons, hk, rank, h0]
    | lt =>
      have hnone : l.find? (fun e => cmp k e.1 == .eq) = none := by
        simp only [List.find?_eq_none, beq_iff_eq]
        intro b hb
        simp [above (by simp [hk]) b hb]
      rw [hnone] at ih
      simp only [List.findIdx?_cons, List.find?_cons, hk, hnone, ih]
      rfl

end Entries
