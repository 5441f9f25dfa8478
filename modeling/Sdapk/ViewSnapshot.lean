/-
The changes of a view's documents (`core/view_snapshot.cc`): one for each
document that changed, later changes merged into earlier ones. `Difference`
says what a change tells of a document before and after; merging changes
composes the differences, so no two changes that follow one another are ever
of the kinds that `AddChange` refuses.
-/
import Mathlib.Data.List.Nodup
import Sdapk.DocumentSet

namespace Client

open Immutable Entries

/-! ## Changes -/

/-- `DocumentViewChange::Type`. -/
inductive ChangeType where
  | removed
  | added
  | modified
  | metadata
  deriving DecidableEq

structure DocumentViewChange where
  document : Document
  type : ChangeType

instance : BEq DocumentViewChange where
  beq lhs rhs := lhs.document == rhs.document && lhs.type = rhs.type

/-- The change that two changes of one document come to: none, if the second
undoes the first. The other combinations make no sense. -/
def DocumentViewChange.merge (old change : DocumentViewChange) : Option (Option DocumentViewChange) :=
  if change.type ≠ .added ∧ old.type = .metadata then some (some change)
  else if change.type = .metadata ∧ old.type ≠ .removed then some (some ⟨change.document, old.type⟩)
  else if change.type = .modified ∧ old.type = .modified then some (some ⟨change.document, .modified⟩)
  else if change.type = .modified ∧ old.type = .added then some (some ⟨change.document, .added⟩)
  else if change.type = .removed ∧ old.type = .added then some none
  else if change.type = .removed ∧ old.type = .modified then some (some ⟨old.document, .removed⟩)
  else if change.type = .added ∧ old.type = .removed then some (some ⟨change.document, .modified⟩)
  else none

/-- Every change is under the key of its document. -/
structure DocumentViewChangeSet where
  changeMap : SortedMap DocumentKey DocumentViewChange DocumentKey.compareTo
  keyed : ∀ e ∈ changeMap.entries, e.2.document.key = e.1

namespace DocumentViewChangeSet

def empty : DocumentViewChangeSet := ⟨.empty, by simp⟩

/-- The change of a document. -/
def changeOf (changes : DocumentViewChangeSet) (key : DocumentKey) : Option DocumentViewChange :=
  (changes.changeMap.find key).map (·.2)

def getChanges (changes : DocumentViewChangeSet) : List DocumentViewChange := changes.changeMap.entries.map (·.2)

theorem changeOf_eq (changes : DocumentViewChangeSet) (key : DocumentKey) :
    changes.changeOf key = get DocumentKey.compareTo key changes.changeMap.entries := by
  rw [changeOf, SortedMap.find_eq, Entries.get]

theorem changeOf_eq_some {changes : DocumentViewChangeSet} {key : DocumentKey} {change : DocumentViewChange} :
    changes.changeOf key = some change ↔ change ∈ changes.getChanges ∧ change.document.key = key := by
  rw [changeOf_eq, Entries.get, getChanges, Option.map_eq_some_iff, List.mem_map]
  constructor
  · rintro ⟨e, he, rfl⟩
    obtain ⟨hmem, hkey⟩ := find_some he
    exact ⟨⟨e, hmem, rfl⟩, (changes.keyed e hmem).trans (Std.LawfulEqCmp.eq_of_compare hkey).symm⟩
  · rintro ⟨⟨e, he, rfl⟩, hkey⟩
    have hkey : key.compareTo e.1 = .eq := by
      rw [← hkey, changes.keyed e he]
      exact Std.ReflCmp.compare_self
    exact ⟨e, find_of_mem changes.changeMap.sorted he hkey, rfl⟩

theorem key_of_changeOf {changes : DocumentViewChangeSet} {key : DocumentKey} {change : DocumentViewChange}
    (h : changes.changeOf key = some change) : change.document.key = key := (changeOf_eq_some.1 h).2

/-- The change put under its document's key. -/
def put (changes : DocumentViewChangeSet) (change : DocumentViewChange) : DocumentViewChangeSet where
  changeMap := changes.changeMap.insert change.document.key change
  keyed := by
    intro e he
    have hget : get DocumentKey.compareTo e.1 (changes.changeMap.insert change.document.key change).entries = some e.2 := by
      rw [Entries.get, find_of_mem (Immutable.SortedMap.sorted _) he Std.ReflCmp.compare_self]
      rfl
    by_cases hk : e.1 = change.document.key
    · rw [hk] at hget ⊢
      rcases changes.changeMap.get_insert_self (k := change.document.key) (v := change) with h | ⟨old, hold, -, h⟩
      · rw [← Option.some.inj (h.symm.trans hget)]
      · rw [← Option.some.inj (h.symm.trans hget)]
        exact key_of_changeOf ((changes.changeOf_eq _).trans hold)
    · rw [Immutable.SortedMap.get_insert_of_ne _ fun h => hk (Std.LawfulEqCmp.eq_of_compare h)] at hget
      exact key_of_changeOf ((changes.changeOf_eq _).trans hget)

def erase (changes : DocumentViewChangeSet) (key : DocumentKey) : DocumentViewChangeSet where
  changeMap := changes.changeMap.erase key
  keyed e he := changes.keyed e (mem_without.1 (SortedMap.entries_erase changes.changeMap ▸ he)).1

/-- `AddChange`, which stops at changes that do not follow one another. What
two changes are merged into is under the key of both. -/
def addChange (changes : DocumentViewChangeSet) (change : DocumentViewChange) : Option DocumentViewChangeSet :=
  let key := change.document.key
  match changes.changeOf key with
  | none => some (changes.put change)
  | some old => (old.merge change).map fun
    | some merged => changes.put merged
    | none => changes.erase key

@[simp] theorem changeOf_empty {key : DocumentKey} : empty.changeOf key = none := rfl

theorem changeOf_put_of_ne {changes : DocumentViewChangeSet} {change : DocumentViewChange} {key : DocumentKey}
    (h : key ≠ change.document.key) : (changes.put change).changeOf key = changes.changeOf key := by
  rw [changeOf_eq, changeOf_eq, put, Immutable.SortedMap.get_insert_of_ne _ fun hk => h (Std.LawfulEqCmp.eq_of_compare hk)]

/-- A change equal to the one that is there leaves that one. -/
theorem changeOf_put_self (changes : DocumentViewChangeSet) (change : DocumentViewChange) :
    ∃ c, (changes.put change).changeOf change.document.key = some c ∧ (c = change ∨ change == c) := by
  rw [changeOf_eq, put]
  rcases changes.changeMap.get_insert_self (k := change.document.key) (v := change) with h | ⟨c, -, hc, h⟩
  · exact ⟨change, h, .inl rfl⟩
  · exact ⟨c, h, .inr hc⟩

theorem changeOf_erase {changes : DocumentViewChangeSet} {key key' : DocumentKey} :
    (changes.erase key).changeOf key' = if key' = key then none else changes.changeOf key' := by
  rw [changeOf_eq, changeOf_eq, erase, Immutable.SortedMap.get_erase]
  refine if_congr ⟨Std.LawfulEqCmp.eq_of_compare, fun h => ?_⟩ rfl rfl
  rw [h]
  exact Std.ReflCmp.compare_self

end DocumentViewChangeSet

/-! ## Differences -/

/-- The document itself, or one equal to it. -/
def Document.Like (d n : Document) : Prop := d = n ∨ n == d

theorem Document.beq_iff {d d' : Document} : d == d' ↔ d.key = d'.key ∧ d.documentType = d'.documentType ∧
    d.version = d'.version ∧ d.documentState = d'.documentState ∧ d.value.equals d'.value := by
  change (decide _ && decide _ && decide _ && decide _ && d.value.equals d'.value) = true ↔ _
  simp [and_assoc]

theorem Document.beq_trans {a b c : Document} (h : a == b) (h' : b == c) : a == c := by
  rw [beq_iff] at *
  exact ⟨h.1.trans h'.1, h.2.1.trans h'.2.1, h.2.2.1.trans h'.2.2.1, h.2.2.2.1.trans h'.2.2.2.1, equals_trans h.2.2.2.2 h'.2.2.2.2⟩

theorem Document.Like.same {d n : Document} (h : d.Like n) : n.Same d := by
  rcases h with rfl | h
  · exact .refl d
  · obtain ⟨hkey, -, -, -, hvalue⟩ := beq_iff.1 h
    exact .inr ⟨hkey, hvalue⟩

theorem Document.Like.trans {a b c : Document} (h : a.Like b) (h' : b.Like c) : a.Like c := by
  rcases h with rfl | h
  · exact h'
  · rcases h' with rfl | h'
    · exact .inr h
    · exact .inr (beq_trans h' h)

/-- What the change of a key tells of its document before and after. -/
def Difference (old new : Option Document) : Option DocumentViewChange → Prop
  | none => new = old
  | some ⟨d, .added⟩ => old = none ∧ ∃ n, new = some n ∧ d.Like n
  | some ⟨_, .removed⟩ => (∃ o, old = some o) ∧ new = none
  | some ⟨d, .modified⟩ => (∃ o, old = some o) ∧ ∃ n, new = some n ∧ d.Like n
  | some ⟨d, .metadata⟩ => ∃ o n, old = some o ∧ new = some n ∧ o.Same n ∧ d.Like n

/-- A change tells what an equal one tells. -/
theorem Difference.congr {old new : Option Document} {change c : DocumentViewChange}
    (h : Difference old new (some change)) (hc : change == c) : Difference old new (some c) := by
  obtain ⟨d, type⟩ := change
  obtain ⟨d', type'⟩ := c
  obtain ⟨hd, rfl⟩ : d == d' ∧ type = type' := by
    change (d == d' && decide (type = type')) = true at hc
    simpa using hc
  have like {n : Document} (hl : d.Like n) : d'.Like n := by
    rcases hl with rfl | hl
    · exact .inr hd
    · exact .inr (Document.beq_trans hl hd)
  cases type with
  | removed => exact h
  | added => exact ⟨h.1, h.2.imp fun n hn => ⟨hn.1, like hn.2⟩⟩
  | modified => exact ⟨h.1, h.2.imp fun n hn => ⟨hn.1, like hn.2⟩⟩
  | metadata =>
    obtain ⟨o, n, ho, hn, hsame, hl⟩ := h
    exact ⟨o, n, ho, hn, hsame, like hl⟩

/-- Merging composes. -/
theorem Difference.merge {old mid new : Option Document} {c change : DocumentViewChange}
    (h : Difference old mid (some c)) (h' : Difference mid new (some change)) :
    ∃ merged, c.merge change = some merged ∧ Difference old new merged ∧
      ∀ m, merged = some m → m.document = change.document ∨ m.document = c.document := by
  obtain ⟨d, type⟩ := c
  obtain ⟨d', type'⟩ := change
  cases type with
  | added =>
    obtain ⟨rfl, n, rfl, hl⟩ := h
    cases type' with
    | added => cases h'.1
    | removed => exact ⟨none, rfl, h'.2, by simp⟩
    | modified => exact ⟨some ⟨d', .added⟩, rfl, ⟨rfl, h'.2⟩, by simp⟩
    | metadata =>
      obtain ⟨_, n', -, rfl, -, hl'⟩ := h'
      exact ⟨some ⟨d', .added⟩, rfl, ⟨rfl, n', rfl, hl'⟩, by simp⟩
  | removed =>
    obtain ⟨ho, rfl⟩ := h
    cases type' with
    | added => exact ⟨some ⟨d', .modified⟩, rfl, ⟨ho, h'.2⟩, by simp⟩
    | removed => exact absurd h'.1 (by simp)
    | modified => exact absurd h'.1 (by simp)
    | metadata =>
      obtain ⟨_, _, hmid, -⟩ := h'
      cases hmid
  | modified =>
    obtain ⟨ho, n, rfl, hl⟩ := h
    cases type' with
    | added => cases h'.1
    | removed => exact ⟨some ⟨d, .removed⟩, rfl, ⟨ho, h'.2⟩, by simp⟩
    | modified => exact ⟨some ⟨d', .modified⟩, rfl, ⟨ho, h'.2⟩, by simp⟩
    | metadata =>
      obtain ⟨_, n', -, rfl, -, hl'⟩ := h'
      exact ⟨some ⟨d', .modified⟩, rfl, ⟨ho, n', rfl, hl'⟩, by simp⟩
  | metadata =>
    obtain ⟨o, n, rfl, rfl, hsame, hl⟩ := h
    cases type' with
    | added => cases h'.1
    | removed => exact ⟨some ⟨d', .removed⟩, rfl, ⟨⟨o, rfl⟩, h'.2⟩, by simp⟩
    | modified => exact ⟨some ⟨d', .modified⟩, rfl, ⟨⟨o, rfl⟩, h'.2⟩, by simp⟩
    | metadata =>
      obtain ⟨_, n', hn, rfl, hsame', hl'⟩ := h'
      obtain rfl := Option.some.inj hn
      exact ⟨some ⟨d', .metadata⟩, rfl, ⟨o, n', rfl, rfl, hsame.trans hsame', hl'⟩, by simp⟩

/-- A change set takes every change that goes on from where it is. -/
theorem DocumentViewChangeSet.addChange_spec {changes : DocumentViewChangeSet} {change : DocumentViewChange}
    {old mid new : Option Document} (h : Difference old mid (changes.changeOf change.document.key))
    (h' : Difference mid new (some change)) :
    ∃ changes', changes.addChange change = some changes' ∧ Difference old new (changes'.changeOf change.document.key) ∧
      ∀ key, key ≠ change.document.key → changes'.changeOf key = changes.changeOf key := by
  have hput {c : DocumentViewChange} (hkey : c.document.key = change.document.key) (hc : Difference old new (some c)) :
      Difference old new ((changes.put c).changeOf change.document.key) ∧
        ∀ key, key ≠ change.document.key → (changes.put c).changeOf key = changes.changeOf key := by
    refine ⟨?_, fun key hne => changeOf_put_of_ne (hkey ▸ hne)⟩
    obtain ⟨c', hc', rfl | heq⟩ := changes.changeOf_put_self c
    · rw [← hkey, hc']
      exact hc
    · rw [← hkey, hc']
      exact hc.congr heq
  cases hold : changes.changeOf change.document.key with
  | none =>
    rw [hold] at h
    obtain rfl : mid = old := h
    exact ⟨changes.put change, by simp only [addChange, hold], hput rfl h'⟩
  | some c =>
    rw [hold] at h
    obtain ⟨merged, hm, hdiff, hdoc⟩ := h.merge h'
    cases merged with
    | none =>
      refine ⟨changes.erase change.document.key, by simp only [addChange, hold, hm, Option.map_some], ?_,
        fun key hne => by rw [changeOf_erase, if_neg hne]⟩
      rw [changeOf_erase, if_pos rfl]
      exact hdiff
    | some m =>
      refine ⟨changes.put m, by simp only [addChange, hold, hm, Option.map_some], hput ?_ hdiff⟩
      rcases hdoc m rfl with hd | hd
      · rw [hd]
      · rw [hd, key_of_changeOf hold]

/-- A list of changes, at most one of each document, that tells the documents
of two sets apart. -/
structure Tells {q : Query} (changes : List DocumentViewChange) (old new : DocumentSet q.documentComparator) : Prop where
  distinct : (changes.map fun c => c.document.key).Nodup
  difference : ∀ key, Difference (old.getDocument key) (new.getDocument key) (changes.find? fun c => c.document.key = key)

theorem find?_key {changes : List DocumentViewChange} (h : (changes.map fun c => c.document.key).Nodup) {key : DocumentKey}
    {change : DocumentViewChange} :
    (changes.find? fun c => c.document.key = key) = some change ↔ change ∈ changes ∧ change.document.key = key := by
  constructor
  · exact fun hf => ⟨List.mem_of_find?_eq_some hf, by simpa using List.find?_some hf⟩
  · rintro ⟨hmem, rfl⟩
    obtain ⟨c, hc⟩ := Option.isSome_iff_exists.1 (List.find?_isSome.2 ⟨change, hmem, decide_eq_true rfl⟩ :
      (changes.find? fun c => c.document.key = change.document.key).isSome)
    have hk : c.document.key = change.document.key := by simpa using List.find?_some hc
    rwa [List.inj_on_of_nodup_map h (List.mem_of_find?_eq_some hc) hmem hk] at hc

/-- A change set tells what its changes tell, in any order. -/
theorem DocumentViewChangeSet.tells {q : Query} {old new : DocumentSet q.documentComparator} {changeSet : DocumentViewChangeSet}
    {changes : List DocumentViewChange} (hperm : changes.Perm changeSet.getChanges)
    (h : ∀ key, Difference (old.getDocument key) (new.getDocument key) (changeSet.changeOf key)) : Tells changes old new := by
  have hdistinct : (changeSet.getChanges.map fun c => c.document.key).Nodup := by
    rw [getChanges, List.map_map]
    refine List.pairwise_map.2 (changeSet.changeMap.sorted.imp_of_mem fun {a b} ha hb hlt hk => ?_)
    have hk : a.1 = b.1 := by rw [← changeSet.keyed a ha, ← changeSet.keyed b hb]; exact hk
    have hself : b.1.compareTo b.1 = .eq := Std.ReflCmp.compare_self
    rw [hk, hself] at hlt
    cases hlt
  have hdistinct' := (hperm.map fun c => c.document.key).nodup_iff.2 hdistinct
  refine ⟨hdistinct', fun key => ?_⟩
  have heq : (changes.find? fun c => c.document.key = key) = changeSet.changeOf key :=
    Option.ext fun c => by rw [find?_key hdistinct', changeOf_eq_some, hperm.mem_iff]
  rw [heq]
  exact h key

/-! ## Snapshots -/

/-- A query's documents, and how they changed. -/
structure ViewSnapshot (q : Query) where
  documents : DocumentSet q.documentComparator
  oldDocuments : DocumentSet q.documentComparator
  documentChanges : List DocumentViewChange
  mutatedKeys : DocumentKeySet
  fromCache : Bool
  syncStateChanged : Bool
  excludesMetadataChanges : Bool
  hasCachedResults : Bool

/-- A snapshot as if all its documents were new. -/
def ViewSnapshot.fromInitialDocuments {q : Query} (documents : DocumentSet q.documentComparator) (mutatedKeys : DocumentKeySet)
    (fromCache excludesMetadataChanges hasCachedResults : Bool) : ViewSnapshot q where
  documents
  oldDocuments := .empty
  documentChanges := documents.toList.map fun doc => ⟨doc, .added⟩
  mutatedKeys
  fromCache
  syncStateChanged := true
  excludesMetadataChanges
  hasCachedResults

end Client
