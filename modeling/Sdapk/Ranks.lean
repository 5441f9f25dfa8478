/-
Lists in a strict order, and where an item stands in one: its rank is the
number of items before it. Erasing an item is erasing what stands at its rank,
inserting one is inserting it at the rank it gets, and two lists whose items
pair up, each with one in the same place, are paired in order.
-/
import Mathlib.Data.List.Forall2
import Mathlib.Data.List.InsertIdx
import Mathlib.Order.Compare

namespace Ranks

open Std

variable {α : Type*} {cmp : α → α → Ordering} {l l' : List α} {a : α}

/-- No item is in the place of another. -/
def Strict (cmp : α → α → Ordering) (l : List α) : Prop := l.Pairwise fun a b => cmp a b = .lt

def rank (cmp : α → α → Ordering) (l : List α) (a : α) : Nat := l.countP fun b => cmp a b == .gt

theorem ne_of_lt [ReflCmp cmp] {a b : α} (h : cmp a b = .lt) : a ≠ b := by
  rintro rfl
  have hself : cmp a a = .eq := ReflCmp.compare_self
  rw [hself] at h
  cases h

theorem Strict.nodup [ReflCmp cmp] (h : Strict cmp l) : l.Nodup := h.imp ne_of_lt

theorem Strict.eq_of_mem_iff [TransCmp cmp] (h : Strict cmp l) (h' : Strict cmp l') (hmem : ∀ x, x ∈ l ↔ x ∈ l') : l = l' := by
  have hperm : l.Perm l' := (List.perm_ext_iff_of_nodup h.nodup h'.nodup).2 hmem
  refine hperm.eq_of_pairwise (fun a b _ _ hab hba => ?_) h h'
  rw [OrientedCmp.gt_of_lt hba] at hab
  cases hab

/-- A list around an item, which stands at the number of items before it. -/
theorem Strict.split [TransCmp cmp] (h : Strict cmp l) (ha : a ∈ l) :
    ∃ before after, l = before ++ a :: after ∧ rank cmp l a = before.length ∧ a ∉ before ∧ a ∉ after := by
  obtain ⟨before, after, rfl⟩ := List.append_of_mem ha
  obtain ⟨-, hafter, hbefore⟩ := List.pairwise_append.1 h
  have hlt : ∀ b ∈ before, cmp b a = .lt := fun b hb => hbefore b hb a List.mem_cons_self
  have hgt : ∀ b ∈ after, cmp a b = .lt := (List.pairwise_cons.1 hafter).1
  refine ⟨before, after, rfl, ?_, fun hm => ne_of_lt (hlt a hm) rfl, fun hm => ne_of_lt (hgt a hm) rfl⟩
  have hcount : before.countP (fun b => cmp a b == .gt) = before.length :=
    List.countP_eq_length.2 fun b hb => by simp [OrientedCmp.gt_of_lt (hlt b hb)]
  have hnone : after.countP (fun b => cmp a b == .gt) = 0 :=
    List.countP_eq_zero.2 fun b hb => by simp [hgt b hb]
  have hself : cmp a a = .eq := ReflCmp.compare_self
  rw [rank, List.countP_append, List.countP_cons, hcount, hnone, hself]
  rfl

/-- An item erased is the one at its rank erased. -/
theorem eq_eraseIdx [TransCmp cmp] (h : Strict cmp l) (h' : Strict cmp l') (ha : a ∈ l) (hmem : ∀ x, x ∈ l' ↔ x ∈ l ∧ x ≠ a) :
    l' = l.eraseIdx (rank cmp l a) := by
  obtain ⟨before, after, rfl, hrank, hbefore, hafter⟩ := h.split ha
  rw [hrank, List.eraseIdx_append_of_length_le (Nat.le_refl _), Nat.sub_self, List.eraseIdx_cons_zero]
  refine h'.eq_of_mem_iff (h.sublist ((List.sublist_cons_self a after).append_left before)) fun x => ?_
  rw [hmem, List.mem_append, List.mem_cons, List.mem_append]
  constructor
  · rintro ⟨hb | rfl | hx, hne⟩
    · exact .inl hb
    · exact absurd rfl hne
    · exact .inr hx
  · rintro (hx | hx)
    · exact ⟨.inl hx, fun he => hbefore (he ▸ hx)⟩
    · exact ⟨.inr (.inr hx), fun he => hafter (he ▸ hx)⟩

/-- An item inserted is put at the rank it gets. -/
theorem eq_insertIdx [TransCmp cmp] (h : Strict cmp l) (h' : Strict cmp l') (ha : a ∉ l) (hmem : ∀ x, x ∈ l' ↔ x = a ∨ x ∈ l) :
    l' = l.insertIdx (rank cmp l' a) a := by
  have herase : l = l'.eraseIdx (rank cmp l' a) := by
    refine eq_eraseIdx h' h ((hmem a).2 (.inl rfl)) fun x => ?_
    rw [hmem]
    exact ⟨fun hx => ⟨.inr hx, fun he => ha (he ▸ hx)⟩, fun ⟨hx, hne⟩ => hx.resolve_left hne⟩
  obtain ⟨before, after, rfl, hrank, -⟩ := h'.split ((hmem a).2 (.inl rfl))
  rw [herase, hrank, List.insertIdx_eraseIdx_self (by simp)]
  simp

/-- Items that pair up with one in the same place pair up in order. -/
theorem Strict.forall₂ [TransCmp cmp] {R : α → α → Prop} (hR : ∀ a b, R a b → cmp a b = .eq) (h : Strict cmp l) (h' : Strict cmp l')
    (hto : ∀ a ∈ l, ∃ b ∈ l', R a b) (hfrom : ∀ b ∈ l', ∃ a ∈ l, R a b) : List.Forall₂ R l l' := by
  induction l generalizing l' with
  | nil =>
    cases l' with
    | nil => exact .nil
    | cons b l' =>
      obtain ⟨a, ha, -⟩ := hfrom b List.mem_cons_self
      cases ha
  | cons a l ih =>
    obtain ⟨hlt, hl⟩ := List.pairwise_cons.1 h
    cases l' with
    | nil =>
      obtain ⟨b, hb, -⟩ := hto a List.mem_cons_self
      cases hb
    | cons b l' =>
      obtain ⟨hlt', hl'⟩ := List.pairwise_cons.1 h'
      -- the first of one list is with the first of the other, or it would come both before and after it
      have hab : R a b := by
        obtain ⟨b', hb', hab'⟩ := hto a List.mem_cons_self
        obtain ⟨a', ha', ha'b⟩ := hfrom b List.mem_cons_self
        rcases List.mem_cons.1 hb' with rfl | hb'
        · exact hab'
        rcases List.mem_cons.1 ha' with rfl | ha'
        · exact ha'b
        have hlo : cmp a b = .lt := TransCmp.lt_of_lt_of_eq (hlt a' ha') (hR _ _ ha'b)
        have hhi : cmp a b = .gt := OrientedCmp.gt_of_lt (TransCmp.lt_of_lt_of_eq (hlt' b' hb') (OrientedCmp.eq_symm (hR _ _ hab')))
        rw [hlo] at hhi
        cases hhi
      refine .cons hab (ih hl hl' (fun c hc => ?_) fun c hc => ?_)
      · obtain ⟨b', hb', hcb⟩ := hto c (List.mem_cons_of_mem _ hc)
        rcases List.mem_cons.1 hb' with rfl | hb'
        · have heq : cmp a c = .eq := TransCmp.eq_trans (hR _ _ hab) (OrientedCmp.eq_symm (hR _ _ hcb))
          rw [hlt c hc] at heq
          cases heq
        · exact ⟨b', hb', hcb⟩
      · obtain ⟨a', ha', hac⟩ := hfrom c (List.mem_cons_of_mem _ hc)
        rcases List.mem_cons.1 ha' with rfl | ha'
        · have heq : cmp b c = .eq := TransCmp.eq_trans (OrientedCmp.eq_symm (hR _ _ hab)) (hR _ _ hac)
          rw [hlt' c hc] at heq
          cases heq
        · exact ⟨a', ha', hac⟩

/-! ## Lists paired in order -/

variable {R : α → α → Prop}

theorem forall₂_eraseIdx (h : List.Forall₂ R l l') (i : Nat) : List.Forall₂ R (l.eraseIdx i) (l'.eraseIdx i) := by
  induction h generalizing i with
  | nil => exact .nil
  | cons hab h ih =>
    cases i with
    | zero => exact h
    | succ i => exact .cons hab (ih i)

theorem forall₂_insertIdx (h : List.Forall₂ R l l') (ha : R a a) (i : Nat) : List.Forall₂ R (l.insertIdx i a) (l'.insertIdx i a) := by
  induction h generalizing i with
  | nil =>
    cases i with
    | zero => exact .cons ha .nil
    | succ i => exact .nil
  | cons hab h ih =>
    cases i with
    | zero => exact .cons ha (.cons hab h)
    | succ i => exact .cons hab (ih i)

theorem forall₂_trans {β γ : Type*} {R : α → β → Prop} {S : β → γ → Prop} {T : α → γ → Prop} {l' : List β} {l'' : List γ}
    (h : List.Forall₂ R l l') (h' : List.Forall₂ S l' l'') (htrans : ∀ a b c, R a b → S b c → T a c) : List.Forall₂ T l l'' := by
  induction h generalizing l'' with
  | nil =>
    cases h'
    exact .nil
  | cons hab _ ih =>
    obtain ⟨c, m, hbc, hrest, rfl⟩ := List.forall₂_cons_left_iff.1 h'
    exact .cons (htrans _ _ _ hab hbc) (ih hrest)

end Ranks
