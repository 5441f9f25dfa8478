/-
Lists of things with a key: the entries of a key replaced (`put`) or taken
out (`without`). Where a key has one entry at most, replacing the first entry
of the key is replacing every one (`set_eq_put`).
-/
import Mathlib.Data.List.Basic
import Mathlib.Data.List.Nodup

namespace Keyed

variable {α κ : Type*} [DecidableEq κ] {key : α → κ} {l : List α} {a b : α} {k k' : κ} {i : Nat}

/-- The entries of `a`'s key replaced by `a`. -/
def put (key : α → κ) (a : α) (l : List α) : List α := l.map fun b => if key b = key a then a else b

/-- The entries of key `k` taken out. -/
def without (key : α → κ) (k : κ) (l : List α) : List α := l.filter fun b => key b ≠ k

@[simp] theorem map_key_put : (put key a l).map key = l.map key := by
  rw [put, List.map_map]
  refine List.map_congr_left fun b _ => ?_
  simp only [Function.comp_apply]
  split
  · next h => exact h.symm
  · rfl

@[simp] theorem mem_put : b ∈ put key a l ↔ b = a ∧ key a ∈ l.map key ∨ b ∈ l ∧ key b ≠ key a := by
  simp only [put, List.mem_map]
  constructor
  · rintro ⟨c, hc, rfl⟩
    split
    · next h => exact .inl ⟨rfl, c, hc, h⟩
    · next h => exact .inr ⟨hc, h⟩
  · rintro (⟨rfl, c, hc, h⟩ | ⟨hb, h⟩)
    · exact ⟨c, hc, if_pos h⟩
    · exact ⟨b, hb, if_neg h⟩

@[simp] theorem mem_without : b ∈ without key k l ↔ b ∈ l ∧ key b ≠ k := by
  simp [without]

theorem map_key_without : (without key k l).map key = (l.map key).filter (· ≠ k) := by
  simp [without, List.filter_map, Function.comp_def]

theorem nodup_without (h : (l.map key).Nodup) : ((without key k l).map key).Nodup := by
  rw [map_key_without]
  exact h.filter _

/-- Replacing a key that has no entry changes nothing. -/
theorem put_eq_self (h : key a ∉ l.map key) : put key a l = l := by
  refine (List.map_congr_left fun b hb => ?_).trans (List.map_id l)
  have hne : key b ≠ key a := fun hk => h (hk ▸ List.mem_map_of_mem hb)
  exact if_neg hne

/-- Taking out a key changes nothing exactly where it has no entry. -/
theorem without_eq_self : without key k l = l ↔ k ∉ l.map key := by
  rw [without, List.filter_eq_self]
  simp

/-! ## The first entry of a key -/

theorem findIdx?_congr {p q : α → Bool} (h : ∀ b ∈ l, p b = q b) : l.findIdx? p = l.findIdx? q := by
  induction l with
  | nil => rfl
  | cons b l ih =>
    rw [List.findIdx?_cons, List.findIdx?_cons, h b List.mem_cons_self, ih fun c hc => h c (List.mem_cons_of_mem b hc)]

theorem findIdx?_eq_none : l.findIdx? (fun b => key b = key a) = none ↔ key a ∉ l.map key := by
  simp [List.findIdx?_eq_none_iff]

/-- Where a key has one entry, replacing the first entry is replacing every one. -/
theorem set_eq_put (hc : (l.map key).count (key a) ≤ 1) (h : l.findIdx? (fun b => key b = key a) = some i) :
    l.set i a = put key a l := by
  induction l generalizing i with
  | nil => cases h
  | cons b l ih =>
    rw [List.map_cons, List.count_cons] at hc
    rw [List.findIdx?_cons] at h
    by_cases hb : key b = key a
    · have hnot : key a ∉ l.map key := by
        rw [if_pos (beq_iff_eq.2 hb)] at hc
        exact List.count_eq_zero.1 (by omega)
      simp only [hb, decide_true, if_true, Option.some.injEq] at h
      have hput : put key a (b :: l) = a :: put key a l := by simp [put, hb]
      rw [← h, List.set_cons_zero, hput, put_eq_self hnot]
    · simp only [hb, decide_false, Bool.false_eq_true, if_false, Option.map_eq_some_iff] at h
      obtain ⟨i', hi', rfl⟩ := h
      have hput : put key a (b :: l) = b :: put key a l := by simp [put, hb]
      rw [List.set_cons_succ, hput, ih (by omega) hi']

end Keyed
