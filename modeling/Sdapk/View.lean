/-
A query's view (`core/view.cc`): the documents a query shows, brought up to
date from the documents that changed alone. A view with a limit forgets what is
past it; `ComputeDocumentChanges` finds out when that is not enough and another
pass, over what the local store has, is needed.

The limit cuts off the end of the query's order or its beginning: `ahead` is
the order in which documents come first to the view either way.
-/
import Sdapk.ViewSnapshot
import Sdapk.Window

namespace Client

open Immutable Entries

/-! ## Documents by key -/

/-- What a map of documents by their keys holds, in the order of the keys. -/
structure Documents where
  entries : List (DocumentKey × Document)
  sorted : Sorted DocumentKey.compareTo entries
  keyed : ∀ e ∈ entries, e.1 = e.2.key

namespace Documents

def get (docs : Documents) (key : DocumentKey) : Option Document := Entries.get DocumentKey.compareTo key docs.entries

theorem get_eq_some {docs : Documents} {key : DocumentKey} {d : Document} : docs.get key = some d ↔ (key, d) ∈ docs.entries :=
  Entries.get_eq_some docs.sorted

theorem key_of_get {docs : Documents} {key : DocumentKey} {d : Document} (h : docs.get key = some d) : d.key = key :=
  (docs.keyed _ (get_eq_some.1 h)).symm

def empty : Documents := ⟨[], .nil, by simp⟩

def single (d : Document) : Documents := ⟨[(d.key, d)], List.pairwise_singleton .., by simp⟩

/-- The changed documents in the place of those before. -/
def applied (docs changes : Documents) : Documents where
  entries := changes.entries.foldl (fun l e => put DocumentKey.compareTo e.1 e.2 l) docs.entries
  sorted := foldl_put_sorted docs.sorted
  keyed e he := by
    have hget := (Entries.get_eq_some (foldl_put_sorted docs.sorted)).2 (show (e.1, e.2) ∈ _ from he)
    rw [get_foldl_put changes.sorted docs.sorted, Option.or_eq_some_iff] at hget
    rcases hget with h | ⟨-, h⟩
    · exact (key_of_get h).symm
    · exact (key_of_get h).symm

theorem get_applied {docs changes : Documents} {key : DocumentKey} :
    (docs.applied changes).get key = (changes.get key).or (docs.get key) := get_foldl_put changes.sorted docs.sorted

/-- `ExecuteFullCollectionScan`: the documents that match, whatever the limit. -/
def executeQuery (docs : Documents) (q : Query) : Documents where
  entries := docs.entries.filter fun e => q.matchesDocument e.2
  sorted := List.Pairwise.filter _ docs.sorted
  keyed e he := docs.keyed e (List.mem_filter.1 he).1

end Documents

/-! ## Computing the changes -/

structure ViewDocumentChanges (q : Query) where
  documentSet : DocumentSet q.documentComparator
  changeSet : DocumentViewChangeSet
  mutatedKeys : DocumentKeySet
  needsRefill : Bool

/-- `SyncState`; `Local` is from the cache only. -/
inductive SyncState where
  | none
  | localOnly
  | synced
  deriving DecidableEq

structure View (q : Query) where
  documentSet : DocumentSet q.documentComparator
  syncedDocuments : DocumentKeySet
  limboDocuments : DocumentKeySet
  mutatedKeys : DocumentKeySet
  current : Bool
  syncState : SyncState

variable {q : Query}

namespace ViewDocumentChanges

/-- The document as it is now, or none, in the place of the one before. -/
def replace (c : ViewDocumentChanges q) (key : DocumentKey) (newDoc : Option Document) : ViewDocumentChanges q :=
  match newDoc with
  | some doc =>
    { c with
      documentSet := c.documentSet.insert newDoc
      mutatedKeys := if doc.hasLocalMutations then DocumentKeySet.insert c.mutatedKeys key else c.mutatedKeys.erase key }
  | none => { c with documentSet := c.documentSet.erase key, mutatedKeys := c.mutatedKeys.erase key }

/-- A change applied. -/
def update (c : ViewDocumentChanges q) (key : DocumentKey) (change : DocumentViewChange) (newDoc : Option Document) :
    Option (ViewDocumentChanges q) :=
  (c.changeSet.addChange change).map fun changeSet => { c.replace key newDoc with changeSet }

/-- The document furthest out dropped. -/
def dropOne (c : ViewDocumentChanges q) : Option (ViewDocumentChanges q) := do
  let oldDoc ← if q.hasLimitToFirst then c.documentSet.getLastDocument else c.documentSet.getFirstDocument
  c.update oldDoc.key ⟨oldDoc, .removed⟩ none

def dropMany : Nat → ViewDocumentChanges q → Option (ViewDocumentChanges q)
  | 0, c => some c
  | i + 1, c => c.dropOne.bind (dropMany i)

/-- Documents dropped to meet the limit. -/
def dropOut (c : ViewDocumentChanges q) : Option (ViewDocumentChanges q) :=
  if q.limitType ≠ .none ∧ q.limit < c.documentSet.size then c.dropMany (c.documentSet.size - q.limit) else some c

end ViewDocumentChanges

/-- A document changed by a write that was acknowledged is sent once more. -/
def shouldWaitForSyncedDocument (newDoc oldDoc : Document) : Bool :=
  oldDoc.hasLocalMutations && newDoc.hasCommittedMutations && !newDoc.hasLocalMutations

/-- The document, if it matches. -/
def Query.matching (q : Query) (doc : Document) : Option Document := if q.matchesDocument doc then some doc else none

/-- What a pass over changed documents compares them to. -/
structure Pass (q : Query) where
  oldDocumentSet : DocumentSet q.documentComparator
  oldMutatedKeys : DocumentKeySet

namespace Pass

def lastDocInLimit (p : Pass q) : Option Document :=
  if q.hasLimitToFirst ∧ p.oldDocumentSet.size = q.limit then p.oldDocumentSet.getLastDocument else none

def firstDocInLimit (p : Pass q) : Option Document :=
  if q.hasLimitToLast ∧ p.oldDocumentSet.size = q.limit then p.oldDocumentSet.getFirstDocument else none

/-- A document past the last one, or before the first one, of a full limit. -/
def outsideLimits (p : Pass q) (newDoc : Document) : Bool :=
  let outsideLimit := p.lastDocInLimit.any fun last => q.comparator newDoc last = .gt
  let outsideLimitToLast := p.firstDocInLimit.any fun first => q.comparator newDoc first = .lt
  outsideLimit || outsideLimitToLast

/-- The change a changed document makes, if it makes one, and whether there
may then be some other document in the local store that belongs in its place. -/
def change (p : Pass q) (key : DocumentKey) (newDoc : Option Document) : Option DocumentViewChange × Bool :=
  let oldDoc := p.oldDocumentSet.getDocument key
  let oldDocHadPendingMutations := oldDoc.isSome && p.oldMutatedKeys.contains key
  -- committed mutations count for documents that were mutated while the view was there
  let newDocHasPendingMutations := newDoc.any fun d =>
    d.hasLocalMutations || (p.oldMutatedKeys.contains key && d.hasCommittedMutations)
  match oldDoc, newDoc with
  | some old, some new =>
    if !(old.value == new.value) then
      if shouldWaitForSyncedDocument new old then (none, false)
      else (some ⟨new, .modified⟩, p.outsideLimits new)
    else if oldDocHadPendingMutations ≠ newDocHasPendingMutations then (some ⟨new, .metadata⟩, false)
    else (none, false)
  | none, some new => (some ⟨new, .added⟩, false)
  | some old, none => (some ⟨old, .removed⟩, p.lastDocInLimit.isSome || p.firstDocInLimit.isSome)
  | none, none => (none, false)

/-- One changed document. -/
def apply (p : Pass q) (c : ViewDocumentChanges q) (kv : DocumentKey × Document) : Option (ViewDocumentChanges q) :=
  let newDoc := q.matching kv.2
  match p.change kv.1 newDoc with
  | (none, _) => some c
  | (some change, refill) => { c with needsRefill := c.needsRefill || refill }.update kv.1 change newDoc

end Pass

/-- The changes to a view that changed documents make, after the changes of an
earlier pass if this one is to fill it up again. -/
def View.computeDocumentChanges (v : View q) (docChanges : Documents) (previousChanges : Option (ViewDocumentChanges q)) :
    Option (ViewDocumentChanges q) := do
  let start := previousChanges.getD ⟨v.documentSet, .empty, v.mutatedKeys, false⟩
  let pass : Pass q := ⟨start.documentSet, v.mutatedKeys⟩
  let changed ← docChanges.entries.foldlM pass.apply { start with needsRefill := false }
  let changes ← changed.dropOut
  -- the assertion that a view is not filled up with documents that need it filled up
  if changes.needsRefill && previousChanges.isSome then none else some changes

/-! ## What the changes say -/

/-- The changes tell the documents from those before, and the keys are those of
the documents with mutations. -/
structure ViewDocumentChanges.Coherent (old : DocumentSet q.documentComparator) (c : ViewDocumentChanges q) : Prop where
  difference : ∀ key, Difference (old.getDocument key) (c.documentSet.getDocument key) (c.changeSet.changeOf key)
  mutated : ∀ key, c.mutatedKeys.contains key = (c.documentSet.getDocument key).any Document.hasLocalMutations

variable {old : DocumentSet q.documentComparator} {c : ViewDocumentChanges q}

namespace ViewDocumentChanges

theorem getDocument_replace {key key' : DocumentKey} {newDoc : Option Document} (hnew : ∀ d ∈ newDoc, d.key = key) :
    (c.replace key newDoc).documentSet.getDocument key' = if key' = key then newDoc else c.documentSet.getDocument key' := by
  cases newDoc with
  | none => exact DocumentSet.getDocument_erase
  | some doc => exact hnew doc rfl ▸ DocumentSet.getDocument_insert

theorem mutatedKeys_replace {key key' : DocumentKey} {newDoc : Option Document} :
    (c.replace key newDoc).mutatedKeys.contains key' =
      if key' = key then newDoc.any Document.hasLocalMutations else c.mutatedKeys.contains key' := by
  cases newDoc with
  | none => by_cases hk : key' = key <;> simp [replace, hk]
  | some doc => by_cases hm : doc.hasLocalMutations <;> by_cases hk : key' = key <;> simp [replace, hm, hk]

theorem needsRefill_replace {key : DocumentKey} {newDoc : Option Document} : (c.replace key newDoc).needsRefill = c.needsRefill := by
  cases newDoc <;> rfl

theorem Coherent.update {key : DocumentKey} {change : DocumentViewChange} {newDoc : Option Document} (h : c.Coherent old)
    (hkey : change.document.key = key) (hnew : ∀ d ∈ newDoc, d.key = key)
    (hd : Difference (c.documentSet.getDocument key) newDoc (some change)) :
    ∃ c', c.update key change newDoc = some c' ∧ c'.Coherent old ∧ c'.needsRefill = c.needsRefill ∧
      ∀ key', c'.documentSet.getDocument key' = if key' = key then newDoc else c.documentSet.getDocument key' := by
  subst hkey
  obtain ⟨changeSet, hset, hdiff, hother⟩ := DocumentViewChangeSet.addChange_spec (h.difference _) hd
  refine ⟨{ c.replace change.document.key newDoc with changeSet }, by rw [ViewDocumentChanges.update, hset]; rfl,
    ⟨fun key' => ?_, fun key' => ?_⟩, needsRefill_replace, fun key' => getDocument_replace hnew⟩
  · rw [getDocument_replace hnew]
    split
    · next heq => rw [heq]; exact hdiff
    · next hne => rw [hother key' hne]; exact h.difference key'
  · rw [mutatedKeys_replace, getDocument_replace hnew]
    split
    · rfl
    · exact h.mutated key'

end ViewDocumentChanges

/-! ## One pass -/

theorem Query.matching_eq_some {doc d : Document} : q.matching doc = some d ↔ q.matchesDocument doc ∧ doc = d := by
  unfold Query.matching
  split <;> simp_all

theorem Query.matching_eq_none {doc : Document} : q.matching doc = none ↔ q.matchesDocument doc = false := by
  unfold Query.matching
  split <;> simp_all

namespace Pass

variable {p : Pass q} {key : DocumentKey} {newDoc : Option Document}

/-- Everything that a changed document can do. -/
theorem change_cases (p : Pass q) (key : DocumentKey) (newDoc : Option Document) :
    (p.oldDocumentSet.getDocument key = none ∧ newDoc = none ∧ p.change key newDoc = (none, false)) ∨
    (∃ n, p.oldDocumentSet.getDocument key = none ∧ newDoc = some n ∧ p.change key newDoc = (some ⟨n, .added⟩, false)) ∨
    (∃ o, p.oldDocumentSet.getDocument key = some o ∧ newDoc = none ∧
      p.change key newDoc = (some ⟨o, .removed⟩, p.lastDocInLimit.isSome || p.firstDocInLimit.isSome)) ∨
    (∃ o n, p.oldDocumentSet.getDocument key = some o ∧ newDoc = some n ∧ (o.value == n.value) = true ∧
      p.oldMutatedKeys.contains key = (n.hasLocalMutations || (p.oldMutatedKeys.contains key && n.hasCommittedMutations)) ∧
      p.change key newDoc = (none, false)) ∨
    (∃ o n, p.oldDocumentSet.getDocument key = some o ∧ newDoc = some n ∧ (o.value == n.value) = true ∧
      p.change key newDoc = (some ⟨n, .metadata⟩, false)) ∨
    (∃ o n, p.oldDocumentSet.getDocument key = some o ∧ newDoc = some n ∧ shouldWaitForSyncedDocument n o ∧
      p.change key newDoc = (none, false)) ∨
    ∃ o n, p.oldDocumentSet.getDocument key = some o ∧ newDoc = some n ∧ (o.value == n.value) = false ∧
      shouldWaitForSyncedDocument n o = false ∧ p.change key newDoc = (some ⟨n, .modified⟩, p.outsideLimits n) := by
  unfold change
  cases ho : p.oldDocumentSet.getDocument key with
  | none => cases newDoc <;> simp
  | some o =>
    cases newDoc with
    | none => simp
    | some n =>
      cases hv : o.value == n.value with
      | false =>
        cases hw : shouldWaitForSyncedDocument n o <;> simp [hv, hw]
      | true =>
        by_cases hm : p.oldMutatedKeys.contains key = (n.hasLocalMutations || (p.oldMutatedKeys.contains key && n.hasCommittedMutations))
        · refine .inr (.inr (.inr (.inl ⟨o, n, rfl, rfl, hv, hm, ?_⟩)))
          simp [hv, ← hm]
        · refine .inr (.inr (.inr (.inr (.inl ⟨o, n, rfl, rfl, hv, ?_⟩))))
          simp [hv, hm]

/-- The document that a changed one leaves in the view. -/
def documentAfter (p : Pass q) (key : DocumentKey) (newDoc : Option Document) : Option Document :=
  if (p.change key newDoc).1.isSome then newDoc else p.oldDocumentSet.getDocument key

/-- The change tells what is done. -/
theorem difference_change {change : DocumentViewChange} (hnew : ∀ d ∈ newDoc, d.key = key)
    (h : (p.change key newDoc).1 = some change) :
    change.document.key = key ∧ Difference (p.oldDocumentSet.getDocument key) newDoc (some change) := by
  have hold {o} (ho : p.oldDocumentSet.getDocument key = some o) : o.key = key := (DocumentSet.getDocument_eq_some.1 ho).2
  obtain ⟨-, -, hc⟩ | ⟨n, ho, rfl, hc⟩ | ⟨o, ho, rfl, hc⟩ | ⟨_, _, _, _, _, _, hc⟩ | ⟨o, n, ho, rfl, hv, hc⟩ |
    ⟨_, _, _, _, _, hc⟩ | ⟨o, n, ho, rfl, hv, hw, hc⟩ := p.change_cases key newDoc
  all_goals
    rw [hc] at h
    cases h
  · exact ⟨hnew n rfl, ho, n, rfl, .inl rfl⟩
  · exact ⟨hold ho, ⟨o, ho⟩, rfl⟩
  · exact ⟨hnew n rfl, o, n, ho, rfl, .inr ⟨(hold ho).trans (hnew n rfl).symm, hv⟩, .inl rfl⟩
  · exact ⟨hnew n rfl, ⟨o, ho⟩, n, rfl, .inl rfl⟩

theorem apply_spec {kv : DocumentKey × Document} (h : c.Coherent old) (hkey : kv.1 = kv.2.key)
    (hstart : c.documentSet.getDocument kv.1 = p.oldDocumentSet.getDocument kv.1) :
    ∃ c', p.apply c kv = some c' ∧ c'.Coherent old ∧
      c'.needsRefill = (c.needsRefill || (p.change kv.1 (q.matching kv.2)).2) ∧
      ∀ key, c'.documentSet.getDocument key =
        if key = kv.1 then p.documentAfter kv.1 (q.matching kv.2) else c.documentSet.getDocument key := by
  have hnew : ∀ d ∈ q.matching kv.2, d.key = kv.1 := fun d hd => by
    rw [hkey, (Query.matching_eq_some.1 hd).2]
  have hnone : (p.change kv.1 (q.matching kv.2)).1 = none → (p.change kv.1 (q.matching kv.2)).2 = false := by
    obtain ⟨-, -, hc⟩ | ⟨n, ho, hn, hc⟩ | ⟨o, ho, hn, hc⟩ | ⟨_, _, _, _, _, _, hc⟩ | ⟨o, n, ho, hn, hv, hc⟩ |
      ⟨_, _, _, _, _, hc⟩ | ⟨o, n, ho, hn, hv, hw, hc⟩ := p.change_cases kv.1 (q.matching kv.2) <;> simp [hc]
  unfold documentAfter
  cases hc : p.change kv.1 (q.matching kv.2) with
  | mk change refill =>
    rw [hc] at hnone
    cases change with
    | none =>
      obtain rfl : refill = false := hnone rfl
      refine ⟨c, by simp only [apply, hc], h, by simp, fun key => ?_⟩
      split
      · next heq => rw [heq, hstart]; rfl
      · rfl
    | some change =>
      obtain ⟨hk, hdiff⟩ := p.difference_change hnew (by rw [hc])
      obtain ⟨c', hc', hcoh, hrefill, hdoc⟩ := ViewDocumentChanges.Coherent.update (c := { c with needsRefill := c.needsRefill || refill })
        ⟨h.difference, h.mutated⟩ hk hnew (hstart ▸ hdiff)
      exact ⟨c', by simpa only [apply, hc] using hc', hcoh, hrefill, hdoc⟩

/-- A pass over documents of different keys does to each key what its document does. -/
theorem foldlM_apply {l : List (DocumentKey × Document)} (hl : l.Pairwise fun a b => a.1 ≠ b.1) (hkeyed : ∀ e ∈ l, e.1 = e.2.key)
    (h : c.Coherent old) (hstart : ∀ e ∈ l, c.documentSet.getDocument e.1 = p.oldDocumentSet.getDocument e.1) :
    ∃ c', l.foldlM p.apply c = some c' ∧ c'.Coherent old ∧
      c'.needsRefill = (c.needsRefill || l.any fun e => (p.change e.1 (q.matching e.2)).2) ∧
      (∀ e ∈ l, c'.documentSet.getDocument e.1 = p.documentAfter e.1 (q.matching e.2)) ∧
      ∀ key, (∀ e ∈ l, e.1 ≠ key) → c'.documentSet.getDocument key = c.documentSet.getDocument key := by
  induction l generalizing c with
  | nil => exact ⟨c, rfl, h, by simp, by simp, fun _ _ => rfl⟩
  | cons e l ih =>
    obtain ⟨he, hl⟩ := List.pairwise_cons.1 hl
    obtain ⟨c₁, hc₁, hcoh₁, hrefill₁, hdoc₁⟩ := p.apply_spec h (hkeyed e List.mem_cons_self) (hstart e List.mem_cons_self)
    obtain ⟨c', hc', hcoh, hrefill, hdoc, hother⟩ := ih hl (fun e he => hkeyed e (List.mem_cons_of_mem _ he)) hcoh₁ fun e' he' => by
      rw [hdoc₁, if_neg (he e' he').symm, hstart e' (List.mem_cons_of_mem _ he')]
    refine ⟨c', by rw [List.foldlM_cons, hc₁]; exact hc', hcoh, by rw [hrefill, hrefill₁, List.any_cons, Bool.or_assoc], ?_,
      fun key hkey => ?_⟩
    · rintro e' he'
      rcases List.mem_cons.1 he' with rfl | he'
      · rw [hother e'.1 fun e'' he'' => (he e'' he'').symm, hdoc₁, if_pos rfl]
      · exact hdoc e' he'
    · rw [hother key fun e' he' => hkey e' (List.mem_cons_of_mem _ he'), hdoc₁, if_neg (hkey e List.mem_cons_self).symm]

end Pass

end Client
