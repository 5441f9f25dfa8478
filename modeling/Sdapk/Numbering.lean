/-
How far the numbers go. `generateId` counts on from the latest document, and
two adds that overlap can be given one number; but no number is ever ahead of
how many adds have been given one (`numbered_run`), in whatever order the
calls of the clients proceed. Beside the app stands that many, which no step
looks at.
-/
import Sdapk.Everywhere

namespace Numbering

open Dart Firestore Entity Screen Register Runs System Everywhere

/-- The app, and how many adds have been given an id. -/
structure Issuing (R : Type) extends App R where
  issued : Nat

variable {R : Type}

def Asking : Stage R → Bool
  | .add _ _ => true
  | _ => false

/-- An add is given its id: its query answers. -/
def gives (s : App R) : Act → Bool
  | .move m => m.ok && Asking (s.calls m.call).stage
  | _ => false

variable [Screen R]

def step (s : Issuing R) (a : Act) : Issuing R :=
  { toApp := s.toApp.step a, issued := s.issued + (gives s.toApp a).toNat }

/-- Nothing stored, and nothing given. -/
def start (R : Type) [Screen R] (clock : DateTime) : Issuing R := { App.start R clock with issued := 0 }

/-- An id with one of the numbers up to `n`. -/
def Used (R : Type) [Screen R] (n : Nat) (id : String) : Prop := ∃ k : Int, 0 < k ∧ k ≤ n ∧ id = idOf R k

theorem Used.mono {n n' : Nat} {id : String} (hn : n ≤ n') (h : Used R n id) : Used R n' id := by
  obtain ⟨k, hk, hkn, rfl⟩ := h
  exact ⟨k, hk, by omega, rfl⟩

/-- Every id is one of the numbers up to `n`. -/
def upTo (n : Nat) (R : Type) [Screen R] : Property R where
  record r := Used R n (key r)
  form _ _ := True
  id := Used R n

theorem implies_upTo {n n' : Nat} (hn : n ≤ n') : Implies (upTo n R) (upTo n' R) where
  record _ := Used.mono hn
  form _ _ := id
  id _ := Used.mono hn

/-- What is stored so is well kept. -/
theorem wellKept_of_stored {n : Nat} {docs : Collection} (h : Stored (upTo n R) docs) : WellKept R docs := by
  have hsaved : Saved R docs := fun e he => by
    obtain ⟨r, rfl, -⟩ := h e he
    exact ⟨r, rfl⟩
  refine hsaved.wellKept fun e he => ?_
  obtain ⟨r, rfl, k, hk, -, hid⟩ := h e he
  exact ⟨k, hk, hid⟩

/-- **The next id is at most one ahead** of those in use. -/
theorem used_generateId {n : Nat} {docs : Collection} {o : Outcome} {uid : String} (h : Stored (upTo n R) docs)
    (ho : o.query) (hg : Notifier.generateId R o docs = .ok uid) : Used R (n + 1) uid := by
  rcases generateId_ok (wellKept_of_stored h) ho with ⟨-, hg'⟩ | ⟨k, d, hk, he, -, hg'⟩
  · obtain rfl := Except.ok.inj (hg.symm.trans hg')
    exact ⟨1, by omega, by omega, rfl⟩
  · obtain rfl := Except.ok.inj (hg.symm.trans hg')
    obtain ⟨r, hr, k', -, hkn, hid⟩ := h _ he
    have hkk : k = k' := idOf_injective ((Prod.mk.inj hr).1.trans hid)
    exact ⟨k + 1, by omega, by omega, rfl⟩

/-- An act that gives an id is counted. -/
theorem supplies_upTo {s : Issuing R} {a : Act} (h : Holds (upTo s.issued R) s.toApp) :
    Supplies s.toApp a (upTo s.issued R) (upTo (step s a).issued R) where
  implies := implies_upTo (Nat.le_add_right _ _)
  reloaded m docs r _ _ _ hr := by
    show Used R _ (key (reloaded r))
    rw [key_reloaded]
    exact Used.mono (Nat.le_add_right _ _) hr
  filled _ _ _ _ _ _ := trivial
  given m form user uid ha hs hg := by
    have hok : m.ok = true := by
      cases hm : m.ok with
      | true => rfl
      | false =>
        rw [hm] at hg
        cases hg
    have hgives : gives s.toApp a = true := by simp [gives, ha, hs, hok, Asking]
    have hissued : (step s a).issued = s.issued + 1 := by simp [step, hgives]
    rw [hissued]
    exact used_generateId h.docs hok hg
  stamped m form user uid r _ _ _ hid hr := by
    show Used R _ (key r)
    rw [(newRecord_stamped hr).1]
    exact hid.mono (Nat.le_add_right _ _)
  edited call client i changes user now r r' _ _ _ hr _ he := by
    show Used R _ (key r')
    rw [(edited_keeps he).1]
    exact Used.mono (Nat.le_add_right _ _) hr

theorem upTo_run (clock : DateTime) (acts : List Act) :
    Holds (upTo (run step (start R clock) acts).issued R) (run step (start R clock) acts).toApp :=
  run_invariant (I := fun s : Issuing R => Holds (upTo s.issued R) s.toApp) (fun _ _ h => h.step (supplies_upTo h)) acts holds_start

/-- Names that are ids with numbers up to `n`, each once, are no more than `n`. -/
theorem length_le_of_used {n : Nat} {l : List String} (hnd : l.Nodup) (h : ∀ id ∈ l, Used R n id) : l.length ≤ n := by
  have hsub : l ⊆ (List.range n).map fun i : Nat => idOf R (i + 1) := fun id hid => by
    obtain ⟨k, hk, hkn, rfl⟩ := h id hid
    refine List.mem_map.2 ⟨k.toNat - 1, List.mem_range.2 (by omega), ?_⟩
    congr 1
    omega
  have hle := (List.subperm_of_subset hnd hsub).length_le
  simpa using hle

/-- No id in use has a number greater than how many were given, and there are no more documents than that. -/
structure Numbered (s : Issuing R) : Prop where
  docs : ∀ e ∈ s.docs, Used R s.issued e.1
  lists : ∀ c, ∀ r ∈ s.lists c, Used R s.issued (key r)
  opened : ∀ c, ∀ r ∈ s.opened c, Used R s.issued (key r)
  count : s.docs.keys.length ≤ s.issued

/-- **No number is ahead of how many were given**, in every run of any number of clients, adds that overlap and
remote calls that fail among them. -/
theorem numbered_run (clock : DateTime) (acts : List Act) : Numbered (run step (start R clock) acts) := by
  have h := @upTo_run R _ clock acts
  have hdocs : ∀ e ∈ (run step (start R clock) acts).docs, Used R (run step (start R clock) acts).issued e.1 := fun e he => by
    obtain ⟨r, rfl, hr⟩ := h.docs e he
    exact hr
  refine ⟨hdocs, h.lists, h.opened, length_le_of_used (R := R) SortedMap.nodup_keys fun id hid => ?_⟩
  obtain ⟨d, hd⟩ := SortedMap.mem_keys.1 hid
  exact hdocs _ hd

end Numbering
