/-
Cloud Firestore, as far as a client that sets, deletes and queries whole
documents sees it: what a written value is read back as, a collection of
documents by name, and a query with a descending `orderBy`.

A `DateTime` is written as a `Timestamp` of the same instant. A query orders
documents by the field's value (`null` before numbers, numbers before
timestamps, timestamps before text), and documents of equal value by name; a
document without the field is not in its result.
-/
import Mathlib.Data.Prod.Lex
import Mathlib.Data.String.Basic
import Sdapk.Dart.Dynamic
import Sdapk.Ranking
import Sdapk.SortedMap

namespace Firestore

open Dart

/-- A document's fields, as `data()` returns them. -/
abbrev Doc := DynMap

/-- A collection: its documents by name. -/
abbrev Collection := SortedMap String Doc

/-! ## Stored values -/

/-- What a written value is read back as. -/
def stored : Dyn → Dyn
  | .dateTime d => .timestamp (Timestamp.fromDate d)
  | v => v

/-- The document a map is stored as. -/
def document (m : DynMap) : Doc := m.map fun (k, v) => (k, stored v)

@[simp] theorem stored_null : stored .null = .null := rfl
@[simp] theorem stored_str (s : String) : stored (.str s) = .str s := rfl
@[simp] theorem stored_int (i : Int) : stored (.int i) = .int i := rfl
@[simp] theorem stored_ofString (o : Option String) : stored (.ofString o) = .ofString o := by cases o <;> rfl

theorem lookup_document {k : String} {m : DynMap} : (document m).lookup k = (m.lookup k).map stored := by
  induction m with
  | nil => rfl
  | cons e m ih =>
    unfold document at ih ⊢
    rw [List.map_cons, List.lookup_cons, List.lookup_cons, ih]
    split <;> rfl

@[simp] theorem get_document {k : String} {m : DynMap} : DynMap.get (document m) k = stored (DynMap.get m k) := by
  rw [DynMap.get, DynMap.get, lookup_document]
  cases m.lookup k <;> rfl

/-- No stored date is read back as the date it was: not as text, that is. -/
@[simp] theorem tryParseDate_stored (o : Option DateTime) : (stored (.ofDateTime o)).tryParseDate = none := by
  cases o with
  | none => exact Dyn.tryParseDate_null
  | some d => exact Dyn.tryParseDate_timestamp _

/-! ## The order of a query -/

/-- Where a value stands in a query's order: by type, then by value. -/
def sortKey : Dyn → Nat ×ₗ Int ×ₗ String
  | .null => toLex (0, toLex (0, ""))
  | .int i => toLex (1, toLex (i, ""))
  | .dateTime d => toLex (2, toLex (d.microsecondsSinceEpoch * 1000, ""))
  | .timestamp t => toLex (2, toLex (t.nanosecondsSinceEpoch, ""))
  | .str s => toLex (3, toLex (0, s))

/-- Where a document stands in a query ordered by `field`: by the field, then by name. -/
def docKey (field : String) (e : String × Doc) : (Nat ×ₗ Int ×ₗ String) ×ₗ String :=
  toLex (sortKey (e.2.get field), e.1)

/-- `collection.orderBy(field, descending: true)`, each document with its name. -/
def orderByDescending (c : Collection) (field : String) : List (String × Doc) :=
  Ranking.descending (docKey field) (c.entries.filter fun e => (e.2.lookup field).isSome)

/-- The documents `.limit(n).get()` returns of it. -/
def query (c : Collection) (field : String) (n : Nat) : List Doc :=
  ((orderByDescending c field).take n).map (·.2)

theorem sortKey_lt {d d' : DateTime} (h : d.isBefore d') :
    sortKey (stored (.ofDateTime (some d))) < sortKey (stored (.ofDateTime (some d'))) := by
  have : d.microsecondsSinceEpoch < d'.microsecondsSinceEpoch := h
  simp [sortKey, stored, Dyn.ofDateTime, Prod.Lex.toLex_lt_toLex, this]

theorem sortKey_null_le (v : Dyn) : sortKey .null ≤ sortKey v := by
  cases v <;> simp [sortKey, Prod.Lex.toLex_le_toLex]

theorem docKey_lt {field : String} {e e' : String × Doc} :
    docKey field e < docKey field e' ↔ sortKey (e.2.get field) < sortKey (e'.2.get field) ∨
      sortKey (e.2.get field) = sortKey (e'.2.get field) ∧ e.1 < e'.1 := Prod.Lex.toLex_lt_toLex

theorem docKey_lt_of_sortKey {field : String} {e e' : String × Doc}
    (h : sortKey (e.2.get field) < sortKey (e'.2.get field)) : docKey field e < docKey field e' :=
  docKey_lt.2 (.inl h)

/-- Under one name, a document stands where its field puts it. -/
theorem docKey_le_of_sortKey {field k : String} {d d' : Doc} (h : sortKey (d.get field) ≤ sortKey (d'.get field)) :
    docKey field (k, d) ≤ docKey field (k, d') := by
  rcases h.lt_or_eq with h | h
  · exact (docKey_lt_of_sortKey h).le
  · rw [docKey, docKey, h]

theorem mem_orderByDescending {c : Collection} {field : String} {e : String × Doc} :
    e ∈ orderByDescending c field ↔ e ∈ c ∧ (e.2.lookup field).isSome := by
  simp [orderByDescending, SortedMap.mem_def]

theorem mem_query {c : Collection} {field : String} {n : Nat} {d : Doc} (h : d ∈ query c field n) :
    ∃ k, (k, d) ∈ c := by
  obtain ⟨e, he, rfl⟩ := List.mem_map.1 h
  exact ⟨e.1, (mem_orderByDescending.1 (List.mem_of_mem_take he)).1⟩

/-- The document that stands above all others is in every result. -/
theorem mem_query_of_greatest {c : Collection} {field : String} {n : Nat} {e : String × Doc} (he : e ∈ c)
    (hf : (e.2.lookup field).isSome) (hmax : ∀ e' ∈ c, e' ≠ e → docKey field e' < docKey field e) (hn : 0 < n) :
    e.2 ∈ query c field n := by
  have hmem : e ∈ orderByDescending c field := mem_orderByDescending.2 ⟨he, hf⟩
  refine List.mem_map_of_mem ?_
  cases hd : orderByDescending c field with
  | nil =>
    rw [hd] at hmem
    cases hmem
  | cons first rest =>
    have hfirst : first ∈ orderByDescending c field := hd ▸ List.mem_cons_self
    obtain ⟨-, hge⟩ := Ranking.head?_descending (show (orderByDescending c field).head? = some first by rw [hd]; rfl)
    have hle : docKey field e ≤ docKey field first := hge e (by simp [← SortedMap.mem_def, he, hf])
    obtain rfl : first = e := by
      by_contra hne
      exact absurd hle (not_le.2 (hmax first (mem_orderByDescending.1 hfirst).1 hne))
    rw [List.take_cons hn]
    exact List.mem_cons_self

/-- Where every document has the field, a query for one document finds none
in an empty collection, and otherwise the one that stands above all others. -/
theorem query_one {c : Collection} {field : String} (hf : ∀ e ∈ c, (e.2.lookup field).isSome) :
    ((∀ e, e ∉ c) ∧ query c field 1 = []) ∨
      ∃ e ∈ c, query c field 1 = [e.2] ∧ ∀ e' ∈ c, docKey field e' ≤ docKey field e := by
  have hfilter : (c.entries.filter fun e => (e.2.lookup field).isSome) = c.entries := List.filter_eq_self.2 hf
  unfold query orderByDescending
  rw [hfilter]
  cases hd : Ranking.descending (docKey field) c.entries with
  | nil =>
    refine .inl ⟨fun e he => ?_, rfl⟩
    rw [SortedMap.mem_def, Ranking.descending_eq_nil.1 hd] at he
    cases he
  | cons e rest =>
    obtain ⟨he, hmax⟩ := Ranking.head?_descending (by rw [hd]; rfl)
    exact .inr ⟨e, he, rfl, hmax⟩

end Firestore
