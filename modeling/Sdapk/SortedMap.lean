/-
Finite maps with one representation per map: a list of entries in strictly
increasing key order. Two of them are equal as soon as they hold the same
entries (`ext_mem`), or the same value at each key (`ext_get`), with no talk
of the order they were written in.
-/
import Mathlib.Data.List.Basic
import Mathlib.Data.List.Pairwise
import Mathlib.Order.Lattice

/-- A finite map, its entries in increasing key order. -/
structure SortedMap (κ ν : Type*) [LinearOrder κ] where
  entries : List (κ × ν)
  sorted : entries.Pairwise (fun a b => a.1 < b.1)

namespace SortedMap

variable {κ ν : Type*} [LinearOrder κ]

/-! ## Entries -/

/-- The entries with `k` holding `v`. -/
def insertEntry (k : κ) (v : ν) : List (κ × ν) → List (κ × ν)
  | [] => [(k, v)]
  | e :: l => if k < e.1 then (k, v) :: e :: l else if e.1 < k then e :: insertEntry k v l else (k, v) :: l

theorem mem_insertEntry {k : κ} {v : ν} {e : κ × ν} {l : List (κ × ν)} (h : l.Pairwise (fun a b => a.1 < b.1)) :
    e ∈ insertEntry k v l ↔ e = (k, v) ∨ e ∈ l ∧ e.1 ≠ k := by
  induction l with
  | nil => simp [insertEntry]
  | cons a l ih =>
    obtain ⟨ha, hl⟩ := List.pairwise_cons.1 h
    simp only [insertEntry]
    split
    · next hlt =>
      have hne : ∀ b ∈ a :: l, b.1 ≠ k := by
        intro b hb
        rcases List.mem_cons.1 hb with rfl | hb
        · exact hlt.ne'
        · exact (hlt.trans (ha b hb)).ne'
      rw [List.mem_cons]
      exact or_congr_right ⟨fun he => ⟨he, hne e he⟩, And.left⟩
    split
    · next hlt =>
      rw [List.mem_cons, List.mem_cons, ih hl, ← or_assoc, or_comm (a := e = a), or_assoc]
      refine or_congr_right ⟨fun h => ?_, fun h => ?_⟩
      · rcases h with rfl | ⟨he, hk⟩
        · exact ⟨.inl rfl, hlt.ne⟩
        · exact ⟨.inr he, hk⟩
      · obtain ⟨rfl | he, hk⟩ := h
        · exact .inl rfl
        · exact .inr ⟨he, hk⟩
    · next h₁ h₂ =>
      have hak : a.1 = k := le_antisymm (not_lt.1 h₁) (not_lt.1 h₂)
      rw [List.mem_cons]
      refine or_congr_right ⟨fun he => ⟨List.mem_cons_of_mem _ he, (hak ▸ ha e he).ne'⟩, fun h => ?_⟩
      obtain ⟨he, hk⟩ := h
      rcases List.mem_cons.1 he with rfl | he
      · exact absurd hak hk
      · exact he

theorem insertEntry_sorted {k : κ} {v : ν} {l : List (κ × ν)} (h : l.Pairwise (fun a b => a.1 < b.1)) :
    (insertEntry k v l).Pairwise (fun a b => a.1 < b.1) := by
  induction l with
  | nil => simp [insertEntry]
  | cons a l ih =>
    obtain ⟨ha, hl⟩ := List.pairwise_cons.1 h
    simp only [insertEntry]
    split
    · next hlt =>
      refine List.pairwise_cons.2 ⟨fun b hb => ?_, h⟩
      rcases List.mem_cons.1 hb with rfl | hb
      · exact hlt
      · exact hlt.trans (ha b hb)
    split
    · next hlt =>
      refine List.pairwise_cons.2 ⟨fun b hb => ?_, ih hl⟩
      rcases (mem_insertEntry hl).1 hb with rfl | ⟨hb, -⟩
      · exact hlt
      · exact ha b hb
    · next h₁ h₂ =>
      have hak : a.1 = k := le_antisymm (not_lt.1 h₁) (not_lt.1 h₂)
      exact List.pairwise_cons.2 ⟨fun b hb => hak ▸ ha b hb, hl⟩

/-! ## Operations -/

/-- The map with no entry. -/
def empty : SortedMap κ ν := ⟨[], .nil⟩

/-- The value at `k`. -/
def get (m : SortedMap κ ν) (k : κ) : Option ν := (m.entries.find? (·.1 = k)).map (·.2)

/-- `m` with `k` holding `v`, whatever `k` held before. -/
def set (m : SortedMap κ ν) (k : κ) (v : ν) : SortedMap κ ν :=
  ⟨insertEntry k v m.entries, insertEntry_sorted m.sorted⟩

/-- `m` with no entry at `k`. -/
def erase (m : SortedMap κ ν) (k : κ) : SortedMap κ ν :=
  ⟨m.entries.filter (·.1 ≠ k), m.sorted.filter _⟩

/-- The keys, in increasing order. -/
def keys (m : SortedMap κ ν) : List κ := m.entries.map (·.1)

instance : Membership (κ × ν) (SortedMap κ ν) := ⟨fun m e => e ∈ m.entries⟩

theorem mem_def {m : SortedMap κ ν} {e : κ × ν} : e ∈ m ↔ e ∈ m.entries := Iff.rfl

/-! ## What an operation leaves in the map -/

@[simp] theorem not_mem_empty {e : κ × ν} : e ∉ (empty : SortedMap κ ν) := by
  simp [mem_def, empty]

@[simp] theorem mem_set {m : SortedMap κ ν} {k v} {e : κ × ν} :
    e ∈ m.set k v ↔ e = (k, v) ∨ e ∈ m ∧ e.1 ≠ k := mem_insertEntry m.sorted

@[simp] theorem mem_erase {m : SortedMap κ ν} {k} {e : κ × ν} : e ∈ m.erase k ↔ e ∈ m ∧ e.1 ≠ k := by
  simp [mem_def, erase]

theorem val_unique_entries {k : κ} {v w : ν} {l : List (κ × ν)} (h : l.Pairwise (fun a b => a.1 < b.1))
    (hv : (k, v) ∈ l) (hw : (k, w) ∈ l) : v = w := by
  induction l with
  | nil => simp at hv
  | cons a l ih =>
    obtain ⟨ha, hl⟩ := List.pairwise_cons.1 h
    rcases List.mem_cons.1 hv with hva | hvl <;> rcases List.mem_cons.1 hw with hwa | hwl
    · exact (Prod.mk.inj (hva.trans hwa.symm)).2
    · subst hva; exact absurd (ha (k, w) hwl) (lt_irrefl k)
    · subst hwa; exact absurd (ha (k, v) hvl) (lt_irrefl k)
    · exact ih hl hvl hwl

/-- A key has one value. -/
theorem val_unique {m : SortedMap κ ν} {k v w} (hv : (k, v) ∈ m) (hw : (k, w) ∈ m) : v = w :=
  val_unique_entries m.sorted hv hw

theorem get_eq_some {m : SortedMap κ ν} {k v} : m.get k = some v ↔ (k, v) ∈ m := by
  simp only [get, Option.map_eq_some_iff]
  constructor
  · rintro ⟨⟨k', v'⟩, hf, rfl⟩
    have hk := List.find?_some hf
    simp only [decide_eq_true_eq] at hk
    exact hk ▸ List.mem_of_find?_eq_some hf
  · intro h
    cases hf : m.entries.find? (·.1 = k) with
    | none => simpa using List.find?_eq_none.1 hf (k, v) h
    | some e =>
      have hk := List.find?_some hf
      simp only [decide_eq_true_eq] at hk
      have he : (k, e.2) ∈ m := hk ▸ List.mem_of_find?_eq_some hf
      exact ⟨e, rfl, val_unique he h⟩

theorem get_eq_none {m : SortedMap κ ν} {k} : m.get k = none ↔ ∀ e ∈ m, e.1 ≠ k := by
  simp [get, mem_def]

theorem mem_keys {m : SortedMap κ ν} {k} : k ∈ m.keys ↔ ∃ v, (k, v) ∈ m := by
  simp [keys, mem_def]

theorem mem_keys_of_mem {m : SortedMap κ ν} {e : κ × ν} (h : e ∈ m) : e.1 ∈ m.keys := mem_keys.2 ⟨e.2, h⟩

theorem nodup_keys {m : SortedMap κ ν} : m.keys.Nodup := List.pairwise_map.2 (m.sorted.imp fun h => h.ne)

@[simp] theorem mem_keys_set {m : SortedMap κ ν} {k k' v} : k' ∈ (m.set k v).keys ↔ k' = k ∨ k' ∈ m.keys := by
  simp only [mem_keys, mem_set, Prod.mk.injEq]
  constructor
  · rintro ⟨w, ⟨rfl, -⟩ | ⟨hw, -⟩⟩
    · exact .inl rfl
    · exact .inr ⟨w, hw⟩
  · rintro (rfl | ⟨w, hw⟩)
    · exact ⟨v, .inl ⟨rfl, rfl⟩⟩
    · by_cases hk : k' = k
      · exact ⟨v, .inl ⟨hk, rfl⟩⟩
      · exact ⟨w, .inr ⟨hw, hk⟩⟩

@[simp] theorem mem_keys_erase {m : SortedMap κ ν} {k k'} : k' ∈ (m.erase k).keys ↔ k' ∈ m.keys ∧ k' ≠ k := by
  simp only [mem_keys, mem_erase, exists_and_right]

instance [DecidableEq ν] : DecidableEq (SortedMap κ ν) := fun m m' =>
  decidable_of_iff (m.entries = m'.entries) ⟨fun h => by cases m; cases m'; cases h; rfl, congrArg entries⟩

/-- Maps with the same entries are equal. -/
theorem ext_mem {m m' : SortedMap κ ν} (h : ∀ e, e ∈ m ↔ e ∈ m') : m = m' := by
  obtain ⟨l, hl⟩ := m
  obtain ⟨l', hl'⟩ := m'
  simp only [mem_def] at h
  have hn : ∀ {l : List (κ × ν)}, l.Pairwise (fun a b => a.1 < b.1) → l.Nodup := fun h =>
    h.imp fun hlt he => hlt.ne (congrArg Prod.fst he)
  have hp : l.Perm l' := (List.perm_ext_iff_of_nodup (hn hl) (hn hl')).2 h
  have : l = l' := hp.eq_of_pairwise (fun a b _ _ h₁ h₂ => absurd (h₁.trans h₂) (lt_irrefl _)) hl hl'
  subst this
  rfl

/-- Maps that hold the same value at each key are equal. -/
theorem ext_get {m m' : SortedMap κ ν} (h : ∀ k, m.get k = m'.get k) : m = m' :=
  ext_mem fun e => by rw [← get_eq_some, ← get_eq_some, h]

/-! ## Reading after an operation -/

@[simp] theorem get_empty {k} : (empty : SortedMap κ ν).get k = none := rfl

theorem get_set {m : SortedMap κ ν} {k v k'} : (m.set k v).get k' = if k' = k then some v else m.get k' := by
  ext w
  rw [get_eq_some, mem_set]
  split
  · next h => subst h; simp [eq_comm]
  · next h => simp [h, get_eq_some]

@[simp] theorem get_set_self {m : SortedMap κ ν} {k v} : (m.set k v).get k = some v := by simp [get_set]

theorem get_set_other {m : SortedMap κ ν} {k v k'} (h : k' ≠ k) : (m.set k v).get k' = m.get k' := by
  simp [get_set, h]

theorem get_erase {m : SortedMap κ ν} {k k'} : (m.erase k).get k' = if k' = k then none else m.get k' := by
  ext w
  rw [get_eq_some, mem_erase]
  split
  · next h => subst h; simp
  · next h => simp [h, get_eq_some]

/-! ## Operations that change nothing -/

/-- Writing what a key already holds changes nothing. -/
theorem set_eq_self {m : SortedMap κ ν} {k v} : m.set k v = m ↔ m.get k = some v := by
  constructor
  · intro h; rw [← h]; simp
  · intro h
    rw [get_eq_some] at h
    refine ext_mem fun e => ?_
    rw [mem_set]
    constructor
    · rintro (rfl | ⟨he, -⟩)
      · exact h
      · exact he
    · intro he
      by_cases hk : e.1 = k
      · obtain ⟨k', w⟩ := e
        subst hk
        exact .inl (by rw [val_unique he h])
      · exact .inr ⟨he, hk⟩

/-- Deleting a key that holds nothing changes nothing. -/
theorem erase_eq_self {m : SortedMap κ ν} {k} : m.erase k = m ↔ m.get k = none := by
  constructor
  · intro h; rw [← h]; simp [get_erase]
  · intro h
    rw [get_eq_none] at h
    refine ext_mem fun e => ?_
    rw [mem_erase]
    exact ⟨And.left, fun he => ⟨he, h e he⟩⟩

/-! ## Operations seen through a map of the entries -/

variable {κ' ν' : Type*} [LinearOrder κ'] {f : κ × ν → κ' × ν'} {k : κ} {v : ν} {k' : κ'} {v' : ν'}

theorem map_insertEntry {l : List (κ × ν)} (hf : f (k, v) = (k', v'))
    (h : ∀ e ∈ l, (k < e.1 ↔ k' < (f e).1) ∧ (e.1 < k ↔ (f e).1 < k')) :
    (insertEntry k v l).map f = insertEntry k' v' (l.map f) := by
  induction l with
  | nil => simp [insertEntry, hf]
  | cons a l ih =>
    obtain ⟨hlt, hgt⟩ := h a List.mem_cons_self
    have ih := ih fun e he => h e (List.mem_cons_of_mem a he)
    simp only [insertEntry, List.map_cons, ← hlt, ← hgt]
    split
    · rw [List.map_cons, List.map_cons, hf]
    split
    · rw [List.map_cons, ih]
    · rw [List.map_cons, hf]

/-- Writing commutes with a map that keeps the order of the keys. -/
theorem map_entries_set {m : SortedMap κ ν} {m' : SortedMap κ' ν'} (hm : m.entries.map f = m'.entries)
    (hf : f (k, v) = (k', v')) (h : ∀ e ∈ m, (k < e.1 ↔ k' < (f e).1) ∧ (e.1 < k ↔ (f e).1 < k')) :
    (m.set k v).entries.map f = (m'.set k' v').entries :=
  (map_insertEntry hf h).trans (congrArg (insertEntry k' v') hm)

/-- Deleting commutes with a map that tells the keys apart. -/
theorem map_entries_erase {m : SortedMap κ ν} {m' : SortedMap κ' ν'} (hm : m.entries.map f = m'.entries)
    (h : ∀ e ∈ m, e.1 = k ↔ (f e).1 = k') : (m.erase k).entries.map f = (m'.erase k').entries := by
  simp only [erase, ← hm, List.filter_map]
  refine congrArg (List.map f) (List.filter_congr fun e he => ?_)
  simp only [Function.comp_apply, ne_eq, h e he]

end SortedMap
