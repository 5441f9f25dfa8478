/-
A window onto a collection, through which the items that come first in an
order are seen: all of them, or as many as it has room for. `Fills` says of
what is shown and what is hidden that nothing is hidden from a window with room
left, and what is hidden comes after everything shown. `Fills.advance` is why a
full window can be kept up to date without a look at what it hides: as long as
what it showed does not move behind its own last item, that is enough to
decide what it shows next.
-/
import Mathlib.Data.List.Sort
import Mathlib.Order.Compare

namespace Window

open Std

variable {α κ : Type*} {cmp : α → α → Ordering}

/-- What is shown fills a window of the given size, if there is a bound to it. -/
def Fills (cmp : α → α → Ordering) (size : Option Nat) (shown : List α) (hidden : α → Prop) : Prop :=
  (∀ n ∈ size, shown.length ≤ n) ∧ ∀ u, hidden u → size = some shown.length ∧ ∀ v ∈ shown, cmp v u = .lt

variable {size : Option Nat} {old all shown : List α} {hidden : α → Prop}

theorem Fills.mono {hidden' : α → Prop} (h : Fills cmp size shown hidden) (hsub : ∀ u, hidden' u → hidden u) :
    Fills cmp size shown hidden' :=
  ⟨h.1, fun u hu => h.2 u (hsub u hu)⟩

/-- What moved no further than the last item shown is ahead of a hidden one still. -/
theorem length_le_ahead [TransCmp cmp] {key : α → κ} {u : α} (hkeys : (old.map key).Nodup) (hlt : ∀ v ∈ old, cmp v u = .lt)
    (hmoved : ∀ v ∈ old, ∃ w ∈ all, key w = key v ∧ ∃ v' ∈ old, (cmp w v').isLE) :
    old.length ≤ (all.filter fun w => cmp w u = .lt).length := by
  have hsub : old.map key ⊆ (all.filter fun w => cmp w u = .lt).map key := by
    intro k hk
    obtain ⟨v, hv, rfl⟩ := List.mem_map.1 hk
    obtain ⟨w, hw, hkey, v', hv', hle⟩ := hmoved v hv
    exact List.mem_map.2 ⟨w, List.mem_filter.2 ⟨hw, decide_eq_true (TransCmp.lt_of_isLE_of_lt hle (hlt v' hv'))⟩, hkey⟩
  simpa using (List.subperm_of_subset hkeys hsub).length_le

/-- Enough items ahead of a hidden one keep it hidden. -/
theorem Fills.ahead [TransCmp cmp] {n : Nat} {u : α} (h : Fills cmp (some n) shown fun w => w ∈ all ∧ w ∉ shown)
    (hall : all.Nodup) (hn : n ≤ (all.filter fun w => cmp w u = .lt).length) :
    some n = some shown.length ∧ ∀ v ∈ shown, cmp v u = .lt := by
  classical
  have hlen := h.1 n rfl
  have hnodup : (all.filter fun w => cmp w u = .lt).Nodup := hall.filter _
  constructor
  · by_cases hw : ∃ w ∈ all, w ∉ shown
    · obtain ⟨w, hw⟩ := hw
      exact (h.2 w hw).1
    · have hsub : (all.filter fun w => cmp w u = .lt) ⊆ shown := fun w hw' => by
        by_contra hns
        exact hw ⟨w, (List.mem_filter.1 hw').1, hns⟩
      have hlen' := (List.subperm_of_subset hnodup hsub).length_le
      rw [Option.some.injEq]
      omega
  · intro v hv
    by_contra hvu
    have huv : (cmp u v).isLE := by
      have hswap : cmp u v = (cmp v u).swap := OrientedCmp.eq_swap
      rw [hswap]
      cases hc : cmp v u <;> simp_all
    -- all that is ahead of the item is ahead of `v` too, and shown beside it
    have hsub : (all.filter fun w => cmp w u = .lt) ⊆ shown.erase v := by
      intro w hw
      obtain ⟨hw, hwu⟩ := List.mem_filter.1 hw
      have hwv : cmp w v = .lt := TransCmp.lt_of_lt_of_isLE (of_decide_eq_true hwu) huv
      have hne : w ≠ v := by
        rintro rfl
        have hself : cmp w w = .eq := ReflCmp.compare_self
        rw [hself] at hwv
        cases hwv
      refine (List.mem_erase_of_ne hne).2 (by_contra fun hns => ?_)
      rw [OrientedCmp.gt_of_lt ((h.2 w ⟨hw, hns⟩).2 v hv)] at hwv
      cases hwv
    have hlen' := (List.subperm_of_subset hnodup hsub).length_le
    rw [List.length_erase_of_mem hv] at hlen'
    have hpos := List.length_pos_of_mem hv
    omega

/-- What a window hides needs no look as long as nothing it showed moves behind its last item. -/
theorem Fills.advance [TransCmp cmp] (key : α → κ) {hidden' : α → Prop} (h : Fills cmp size old hidden)
    (hkeys : (old.map key).Nodup) (hall : all.Nodup) (hhidden : ∀ u, hidden' u → hidden u)
    (hmoved : (∃ u, hidden' u) → ∀ v ∈ old, ∃ w ∈ all, key w = key v ∧ ∃ v' ∈ old, (cmp w v').isLE)
    (hshown : Fills cmp size shown fun w => w ∈ all ∧ w ∉ shown) :
    Fills cmp size shown fun u => hidden' u ∨ u ∈ all ∧ u ∉ shown := by
  refine ⟨hshown.1, fun u hu => hu.elim (fun hu => ?_) (hshown.2 u)⟩
  obtain ⟨hfull, hlt⟩ := h.2 u (hhidden u hu)
  rw [hfull] at hshown ⊢
  exact hshown.ahead hall (length_le_ahead hkeys hlt (hmoved ⟨u, hu⟩))

/-- A window shows the first items of its collection, in order. -/
theorem Fills.eq_take [TransCmp cmp] (h : Fills cmp size shown fun w => w ∈ all ∧ w ∉ shown) (hsub : shown ⊆ all)
    (hshown : shown.Pairwise fun a b => cmp a b = .lt) (hall : all.Pairwise fun a b => cmp a b = .lt) :
    shown = size.elim all fun n => all.take n := by
  classical
  have hne : ∀ {a b}, cmp a b = .lt → a ≠ b := by
    rintro a _ hab rfl
    have hself : cmp a a = .eq := ReflCmp.compare_self
    rw [hself] at hab
    cases hab
  have hnodup : shown.Nodup := hshown.imp hne
  have hnodup' : all.Nodup := hall.imp hne
  -- what is hidden, in order, after what is shown: that is the collection, in order
  have hperm : (shown ++ all.filter fun w => w ∉ shown).Perm all := by
    refine (List.perm_ext_iff_of_nodup ?_ hnodup').2 fun a => ?_
    · refine List.nodup_append.2 ⟨hnodup, hnodup'.filter _, fun a ha b hb hab => ?_⟩
      exact of_decide_eq_true (List.mem_filter.1 hb).2 (hab ▸ ha)
    · simp only [List.mem_append, List.mem_filter, decide_eq_true_eq]
      exact ⟨fun ha => ha.elim (fun ha => hsub ha) And.left, fun ha => (em (a ∈ shown)).imp id fun hns => ⟨ha, hns⟩⟩
  have hsorted : (shown ++ all.filter fun w => w ∉ shown).Pairwise fun a b => cmp a b = .lt := by
    refine List.pairwise_append.2 ⟨hshown, hall.filter _, fun a ha b hb => ?_⟩
    obtain ⟨hb, hns⟩ := List.mem_filter.1 hb
    exact (h.2 b ⟨hb, of_decide_eq_true hns⟩).2 a ha
  have heq : (shown ++ all.filter fun w => w ∉ shown) = all :=
    hperm.eq_of_pairwise (fun a b _ _ hab hba => absurd (OrientedCmp.gt_of_lt hab) (by simp [hba])) hsorted hall
  cases hf : all.filter fun w => w ∉ shown with
  | nil =>
    rw [hf, List.append_nil] at heq
    cases size with
    | none => exact heq
    | some n => rw [Option.elim, ← heq, List.take_of_length_le (h.1 n rfl)]
  | cons w rest =>
    have hw : w ∈ all ∧ w ∉ shown := by
      have := List.mem_filter.1 (hf ▸ List.mem_cons_self : w ∈ all.filter fun w => w ∉ shown)
      exact ⟨this.1, of_decide_eq_true this.2⟩
    rw [(h.2 w hw).1, Option.elim, ← heq, List.take_left']
    rfl

end Window
