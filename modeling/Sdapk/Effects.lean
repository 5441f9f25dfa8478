/-
Effects at distinct keys. Each effect replaces what a key holds, or takes it
out; some of them have taken place in a list (`ListAfter`) or in a map
(`MapAfter`). What the list and the map then are says which have, and nothing
of the order they came in: two lists, or two maps, in which the same effects
have taken place are equal.
-/
import Mathlib.Data.List.Basic
import Mathlib.Logic.Function.Basic
import Sdapk.Keyed
import Sdapk.SortedMap

namespace Effects

variable {ι α κ ν : Type*} {key : α → κ} {subject : ι → κ} {record : ι → Option α}

/-! ## In a list -/

/-- `l` is `l₀` with the effects `L`: at its subject, each leaves its record, or nothing. -/
def ListAfter (key : α → κ) (subject : ι → κ) (record : ι → Option α) (L : ι → Prop) (l₀ l : List α) : Prop :=
  ∃ F : α → Option α, l = l₀.filterMap F ∧ ∀ x ∈ l₀,
    (∀ i, L i → subject i = key x → F x = record i) ∧ ((∀ i, L i → subject i ≠ key x) → F x = some x)

section

variable {L L' : ι → Prop} {l₀ l l' : List α} {i : ι} {r : α}

theorem listAfter_none (h : ∀ i, ¬ L i) : ListAfter key subject record L l₀ l₀ :=
  ⟨some, by simp, fun _ _ => ⟨fun i hi => absurd hi (h i), fun _ => rfl⟩⟩

/-- The same effects leave the same list. -/
theorem ListAfter.unique (h : ListAfter key subject record L l₀ l) (h' : ListAfter key subject record L l₀ l') : l = l' := by
  obtain ⟨F, rfl, hF⟩ := h
  obtain ⟨F', rfl, hF'⟩ := h'
  refine List.filterMap_congr fun x hx => ?_
  by_cases hi : ∃ i, L i ∧ subject i = key x
  · obtain ⟨i, hi, hk⟩ := hi
    rw [(hF x hx).1 i hi hk, (hF' x hx).1 i hi hk]
  · have hnone : ∀ i, L i → subject i ≠ key x := fun i hi' hk => hi ⟨i, hi', hk⟩
    rw [(hF x hx).2 hnone, (hF' x hx).2 hnone]

theorem ListAfter.congr (h : ListAfter key subject record L l₀ l) (hL : ∀ i, L i ↔ L' i) :
    ListAfter key subject record L' l₀ l := (funext fun i => propext (hL i) : L = L') ▸ h

/-- An entry keeps its key. -/
theorem key_of_after (hr : ∀ i r, record i = some r → key r = subject i) {F : α → Option α} {x y : α}
    (hF : (∀ i, L i → subject i = key x → F x = record i) ∧ ((∀ i, L i → subject i ≠ key x) → F x = some x))
    (hy : F x = some y) : key y = key x := by
  by_cases hi : ∃ i, L i ∧ subject i = key x
  · obtain ⟨i, hi, hk⟩ := hi
    rw [hF.1 i hi hk] at hy
    rw [hr i y hy, hk]
  · rw [hF.2 fun i hi' hk => hi ⟨i, hi', hk⟩] at hy
    rw [Option.some.inj hy]

/-- One more effect: at its subject the list is as at the start. -/
theorem ListAfter.step [DecidableEq κ] (hs : Function.Injective subject) (hr : ∀ i r, record i = some r → key r = subject i)
    (h : ListAfter key subject record L l₀ l) (hi : ¬ L i) {g : α → Option α}
    (hg : ∀ x, g x = if key x = subject i then record i else some x) :
    ListAfter key subject record (fun j => j = i ∨ L j) l₀ (l.filterMap g) := by
  obtain ⟨F, rfl, hF⟩ := h
  refine ⟨fun x => if key x = subject i then record i else F x, ?_, fun x hx => ⟨?_, fun hnone => ?_⟩⟩
  · rw [List.filterMap_filterMap]
    refine List.filterMap_congr fun x hx => ?_
    by_cases hk : key x = subject i
    · have hself : F x = some x := (hF x hx).2 fun j hj hjx => hi (hs (hjx.trans hk) ▸ hj)
      rw [hself, Option.bind_some, hg]
    · rw [if_neg hk]
      cases hy : F x with
      | none => rfl
      | some y => rw [Option.bind_some, hg, key_of_after hr (hF x hx) hy, if_neg hk]
  · intro j hj hk
    rcases hj with rfl | hj
    · exact if_pos hk.symm
    · have hne : key x ≠ subject i := fun hki => hi (hs (hk.trans hki) ▸ hj)
      exact (if_neg hne).trans ((hF x hx).1 j hj hk)
  · have hne : key x ≠ subject i := fun hk => hnone i (.inl rfl) hk.symm
    exact (if_neg hne).trans ((hF x hx).2 fun j hj => hnone j (.inr hj))

theorem ListAfter.put [DecidableEq κ] (hs : Function.Injective subject) (hr : ∀ i r, record i = some r → key r = subject i)
    (h : ListAfter key subject record L l₀ l) (hi : ¬ L i) (hri : record i = some r) :
    ListAfter key subject record (fun j => j = i ∨ L j) l₀ (Keyed.put key r l) := by
  have hput : Keyed.put key r l = l.filterMap fun x => some (if key x = key r then r else x) := by
    rw [Keyed.put, ← List.filterMap_eq_map]
    rfl
  rw [hput]
  refine h.step hs hr hi fun x => ?_
  rw [hri, hr i r hri]
  split <;> rfl

theorem ListAfter.without [DecidableEq κ] (hs : Function.Injective subject) (hr : ∀ i r, record i = some r → key r = subject i)
    (h : ListAfter key subject record L l₀ l) (hi : ¬ L i) (hri : record i = none) :
    ListAfter key subject record (fun j => j = i ∨ L j) l₀ (Keyed.without key (subject i) l) := by
  have hwithout : Keyed.without key (subject i) l = l.filterMap fun x => if key x = subject i then none else some x := by
    rw [Keyed.without, ← List.filterMap_eq_filter]
    refine List.filterMap_congr fun x _ => ?_
    by_cases hk : key x = subject i <;> simp [Option.guard, hk]
  rw [hwithout]
  exact h.step hs hr hi fun x => by rw [hri]

/-- A key no effect of which has taken place is in the list as it was. -/
theorem ListAfter.mem_keys {k : κ} (h : ListAfter key subject record L l₀ l) (hk : k ∈ l₀.map key)
    (hnone : ∀ i, L i → subject i ≠ k) : k ∈ l.map key := by
  obtain ⟨F, rfl, hF⟩ := h
  obtain ⟨x, hx, rfl⟩ := List.mem_map.1 hk
  exact List.mem_map.2 ⟨x, List.mem_filterMap.2 ⟨x, hx, (hF x hx).2 hnone⟩, rfl⟩

theorem map_filterMap_sublist {F : α → Option α} (h : ∀ x ∈ l, ∀ y, F x = some y → key y = key x) :
    ((l.filterMap F).map key).Sublist (l.map key) := by
  induction l with
  | nil => exact .slnil
  | cons x l ih =>
    have ih := ih fun y hy => h y (List.mem_cons_of_mem x hy)
    cases hx : F x with
    | none =>
      rw [List.filterMap_cons_none hx]
      exact ih.cons _
    | some y =>
      rw [List.filterMap_cons_some hx, List.map_cons, List.map_cons, h x List.mem_cons_self y hx]
      exact ih.cons_cons _

/-- Distinct keys stay distinct. -/
theorem ListAfter.nodup (hr : ∀ i r, record i = some r → key r = subject i) (h : ListAfter key subject record L l₀ l)
    (hn : (l₀.map key).Nodup) : (l.map key).Nodup := by
  obtain ⟨F, rfl, hF⟩ := h
  exact hn.sublist (map_filterMap_sublist fun x hx y hy => key_of_after hr (hF x hx) hy)

end

/-! ## In a map -/

/-- `m` is `m₀` with the effects `S`: at its subject, each leaves its record, as `f` says, or nothing. -/
structure MapAfter [LinearOrder κ] (f : α → ν) (subject : ι → κ) (record : ι → Option α) (S : ι → Prop) (m₀ m : SortedMap κ ν) : Prop where
  changed : ∀ i, S i → m.get (subject i) = (record i).map f
  kept : ∀ k, (∀ i, S i → subject i ≠ k) → m.get k = m₀.get k

section

variable [LinearOrder κ] {f : α → ν} {S S' : ι → Prop} {m₀ m m' : SortedMap κ ν} {i : ι} {r : α}

theorem mapAfter_none (h : ∀ i, ¬ S i) : MapAfter f subject record S m₀ m₀ :=
  ⟨fun i hi => absurd hi (h i), fun _ _ => rfl⟩

theorem MapAfter.congr (h : MapAfter f subject record S m₀ m) (hS : ∀ i, S i ↔ S' i) :
    MapAfter f subject record S' m₀ m := (funext fun i => propext (hS i) : S = S') ▸ h

/-- The same effects leave the same map. -/
theorem MapAfter.unique (h : MapAfter f subject record S m₀ m) (h' : MapAfter f subject record S m₀ m') : m = m' := by
  refine SortedMap.ext_get fun k => ?_
  by_cases hi : ∃ i, S i ∧ subject i = k
  · obtain ⟨i, hi, rfl⟩ := hi
    rw [h.changed i hi, h'.changed i hi]
  · have hnone : ∀ i, S i → subject i ≠ k := fun i hi' hk => hi ⟨i, hi', hk⟩
    rw [h.kept k hnone, h'.kept k hnone]

/-- One more effect: the map changes at its subject alone. -/
theorem MapAfter.step (hs : Function.Injective subject) (h : MapAfter f subject record S m₀ m)
    (hi : m'.get (subject i) = (record i).map f) (hother : ∀ k, k ≠ subject i → m'.get k = m.get k) :
    MapAfter f subject record (fun j => j = i ∨ S j) m₀ m' where
  changed := by
    intro j hj
    rcases hj with rfl | hj
    · exact hi
    · by_cases hji : j = i
      · rw [hji, hi]
      · rw [hother _ fun hk => hji (hs hk), h.changed j hj]
  kept k hk := by
    rw [hother k fun hki => hk i (.inl rfl) hki.symm]
    exact h.kept k fun j hj => hk j (.inr hj)

end

end Effects
