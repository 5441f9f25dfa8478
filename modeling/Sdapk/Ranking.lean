/-
A list in descending order of a key: what a query with a descending
`orderBy` hands back. The first element carries the greatest key, and where
the keys are distinct the order is a function of the elements alone.
-/
import Mathlib.Data.List.Sort

namespace Ranking

variable {α β κ κ' : Type*} [LinearOrder κ] [LinearOrder κ'] {key : α → κ} {key' : β → κ'} {l : List α} {a b : α}

/-- The elements, greatest key first. -/
def descending (key : α → κ) (l : List α) : List α := l.insertionSort (fun a b => key b ≤ key a)

instance totalLe : Std.Total (fun a b : α => key b ≤ key a) := ⟨fun a b => le_total (key b) (key a)⟩
instance transLe : IsTrans α (fun a b : α => key b ≤ key a) := ⟨fun _ _ _ h h' => h'.trans h⟩

theorem descending_perm : (descending key l).Perm l := List.perm_insertionSort _ l

@[simp] theorem mem_descending : a ∈ descending key l ↔ a ∈ l := descending_perm.mem_iff

theorem descending_pairwise : (descending key l).Pairwise (fun a b => key b ≤ key a) :=
  List.pairwise_insertionSort _ l

@[simp] theorem descending_nil : descending key ([] : List α) = [] := rfl

theorem descending_eq_nil : descending key l = [] ↔ l = [] := by
  rw [List.eq_nil_iff_forall_not_mem, List.eq_nil_iff_forall_not_mem]
  simp

/-- The first element carries the greatest key. -/
theorem head?_descending (h : (descending key l).head? = some a) : a ∈ l ∧ ∀ b ∈ l, key b ≤ key a := by
  obtain ⟨rest, hr⟩ := List.head?_eq_some_iff.1 h
  have hp : (descending key l).Pairwise (fun a b => key b ≤ key a) := descending_pairwise
  rw [hr] at hp
  refine ⟨mem_descending.1 (hr ▸ List.mem_cons_self), fun b hb => ?_⟩
  rcases List.mem_cons.1 (hr ▸ mem_descending.2 hb) with rfl | hb
  · exact le_rfl
  · exact (List.pairwise_cons.1 hp).1 b hb

/-- A list already in strictly descending order is what any rearrangement of
it sorts to. -/
theorem descending_eq_of_perm {l' : List α} (hp : l'.Perm l) (hl : l.Pairwise (fun a b => key b < key a)) :
    descending key l' = l := by
  have hnd : (l.map key).Nodup := List.pairwise_map.2 (hl.imp fun h => h.ne')
  have hinj := List.inj_on_of_nodup_map hnd
  refine (descending_perm.trans hp).eq_of_pairwise ?_ descending_pairwise (hl.imp fun h => h.le)
  intro a b ha hb hab hba
  exact hinj (hp.mem_iff.1 (mem_descending.1 ha)) hb (le_antisymm hba hab)

/-- Sorting commutes with a map that reflects the order of the keys. -/
theorem map_descending {f : α → β} (h : ∀ a ∈ l, ∀ b ∈ l, key b ≤ key a ↔ key' (f b) ≤ key' (f a)) :
    (descending key l).map f = descending key' (l.map f) :=
  List.map_insertionSort _ _ f l h

end Ranking
