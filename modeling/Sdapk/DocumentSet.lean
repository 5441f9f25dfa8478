/-
The client's set of documents (`model/document_set.cc`): in the order of a
comparator, and to be found by key. It is two maps, of which `agree` says that
they hold the same documents; whatever is said of the set after that is said of
the list of its documents.
-/
import Sdapk.Immutable
import Sdapk.Query

namespace Client

open Immutable Entries

/-- An order of documents that tells documents of different keys apart. -/
structure DocumentComparator where
  compare : Document → Document → Ordering
  trans : Std.TransCmp compare
  key_eq : ∀ {a b}, compare a b = .eq → a.key = b.key

instance (c : DocumentComparator) : Std.TransCmp c.compare := c.trans

def Query.documentComparator (q : Query) : DocumentComparator where
  compare := q.comparator
  trans := inferInstance
  key_eq := key_of_comparator_eq

abbrev DocumentMap := SortedMap DocumentKey Document DocumentKey.compareTo

structure DocumentSet (c : DocumentComparator) where
  index : DocumentMap
  sortedSet : SortedMap Document Unit c.compare
  agree : ∀ e, e ∈ index.entries ↔ e.1 = e.2.key ∧ (e.2, ()) ∈ sortedSet.entries

namespace DocumentSet

variable {c : DocumentComparator}

def empty : DocumentSet c := ⟨.empty, .empty, by simp⟩

def toList (s : DocumentSet c) : List Document := s.sortedSet.entries.map (·.1)

def getDocument (s : DocumentSet c) (key : DocumentKey) : Option Document := (s.index.find key).map (·.2)

def containsKey (s : DocumentSet c) (key : DocumentKey) : Bool := (s.index.find key).isSome

def getFirstDocument (s : DocumentSet c) : Option Document := s.sortedSet.min?.map (·.1)

def getLastDocument (s : DocumentSet c) : Option Document := s.sortedSet.max?.map (·.1)

def indexOf (s : DocumentSet c) (key : DocumentKey) : Option Nat := (s.getDocument key).bind fun d => s.sortedSet.findIndex d

def size (s : DocumentSet c) : Nat := s.index.size

theorem mem_toList {s : DocumentSet c} {d : Document} : d ∈ s.toList ↔ (d.key, d) ∈ s.index.entries := by
  rw [s.agree, toList, List.mem_map]
  exact ⟨fun ⟨(_, ()), h, hd⟩ => hd ▸ ⟨rfl, h⟩, fun h => ⟨(d, ()), h.2, rfl⟩⟩

theorem sorted (s : DocumentSet c) : s.toList.Pairwise fun a b => c.compare a b = .lt :=
  List.pairwise_map.2 s.sortedSet.sorted

theorem getDocument_eq_some {s : DocumentSet c} {key : DocumentKey} {d : Document} :
    s.getDocument key = some d ↔ d ∈ s.toList ∧ d.key = key := by
  rw [mem_toList, getDocument, s.index.find_eq]
  constructor
  · intro h
    obtain ⟨e, he, rfl⟩ := Option.map_eq_some_iff.1 h
    obtain ⟨hmem, hkey⟩ := find_some he
    have hkey : key = e.1 := Std.LawfulEqCmp.eq_of_compare hkey
    have hagree := (s.agree e).1 hmem
    exact ⟨hagree.1 ▸ hmem, by rw [hkey, hagree.1]⟩
  · rintro ⟨hmem, rfl⟩
    rw [find_of_mem s.index.sorted hmem Std.ReflCmp.compare_self]
    rfl

theorem getDocument_eq_none {s : DocumentSet c} {key : DocumentKey} :
    s.getDocument key = none ↔ ∀ d ∈ s.toList, d.key ≠ key := by
  rw [Option.eq_none_iff_forall_ne_some]
  exact ⟨fun h d hd hk => h d (getDocument_eq_some.2 ⟨hd, hk⟩), fun h d hd => h d (getDocument_eq_some.1 hd).1
    (getDocument_eq_some.1 hd).2⟩

/-- Of one key there is one document. -/
theorem eq_of_key {s : DocumentSet c} {a b : Document} (ha : a ∈ s.toList) (hb : b ∈ s.toList) (h : a.key = b.key) : a = b :=
  Option.some.inj ((getDocument_eq_some.2 ⟨ha, h⟩).symm.trans (getDocument_eq_some.2 ⟨hb, rfl⟩))

def erase (s : DocumentSet c) (key : DocumentKey) : DocumentSet c :=
  match h : s.getDocument key with
  | none => s
  | some doc =>
    { index := s.index.erase key
      sortedSet := s.sortedSet.erase doc
      agree := fun e => by
        obtain ⟨hdoc, rfl⟩ := getDocument_eq_some.1 h
        rw [SortedMap.entries_erase, SortedMap.entries_erase, mem_without, mem_without, s.agree]
        rw [and_assoc]
        refine and_congr_right fun hkey => and_congr_right fun hmem => not_congr ?_
        rw [hkey]
        constructor
        · intro hk
          have hk : doc.key = e.2.key := Std.LawfulEqCmp.eq_of_compare hk
          rw [eq_of_key hdoc (mem_toList.2 ((s.agree (e.2.key, e.2)).2 ⟨rfl, hmem⟩)) hk]
          exact Std.ReflCmp.compare_self
        · intro hk
          rw [c.key_eq hk]
          exact Std.ReflCmp.compare_self }

theorem mem_erase {s : DocumentSet c} {key : DocumentKey} {d : Document} :
    d ∈ (s.erase key).toList ↔ d ∈ s.toList ∧ d.key ≠ key := by
  unfold erase
  split
  · next h => exact ⟨fun hd => ⟨hd, getDocument_eq_none.1 h d hd⟩, And.left⟩
  · next doc h =>
    rw [mem_toList, mem_toList]
    simp only [SortedMap.entries_erase, mem_without]
    exact and_congr_right fun _ => not_congr ⟨fun h => (Std.LawfulEqCmp.eq_of_compare h).symm,
      fun h => h ▸ Std.ReflCmp.compare_self⟩

/-- Any document of the same key is taken out first. -/
def insert (s : DocumentSet c) : Option Document → DocumentSet c
  | none => s
  | some document =>
    let removed := s.erase document.key
    have hnew : ∀ d ∈ removed.toList, d.key ≠ document.key := fun d hd => (mem_erase.1 hd).2
    have hindex : ∀ e ∈ removed.index.entries, document.key.compareTo e.1 ≠ .eq := fun e he hk =>
      hnew e.2 (mem_toList.2 ((removed.agree e).1 he |>.1 ▸ he)) (by
        rw [← (removed.agree e).1 he |>.1]
        exact (Std.LawfulEqCmp.eq_of_compare hk).symm)
    have hset : ∀ e ∈ removed.sortedSet.entries, c.compare document e.1 ≠ .eq := fun e he hk =>
      hnew e.1 (List.mem_map_of_mem he) (c.key_eq hk).symm
    { index := removed.index.insert document.key document
      sortedSet := removed.sortedSet.insert document ()
      agree := fun e => by
        rw [SortedMap.entries_insert_new _ hindex, SortedMap.entries_insert_new _ hset,
          mem_put_new fun b hb h => hindex b hb (Std.OrientedCmp.eq_symm h),
          mem_put_new fun b hb h => hset b hb (Std.OrientedCmp.eq_symm h), removed.agree]
        rw [and_or_left]
        refine or_congr_left ⟨fun h => h ▸ ⟨rfl, rfl⟩, fun h => ?_⟩
        obtain ⟨hkey, hdoc⟩ := h
        have hdoc : e.2 = document := (Prod.ext_iff.1 hdoc).1
        exact Prod.ext (hkey.trans (congrArg _ hdoc)) hdoc }

theorem mem_insert {s : DocumentSet c} {document d : Document} :
    d ∈ (s.insert (some document)).toList ↔ d = document ∨ d ∈ s.toList ∧ d.key ≠ document.key := by
  have hnew : ∀ e ∈ (s.erase document.key).sortedSet.entries, c.compare document e.1 ≠ .eq := fun e he hk =>
    (mem_erase.1 (List.mem_map_of_mem he)).2 (c.key_eq hk).symm
  rw [← mem_erase, toList, insert, SortedMap.entries_insert_new _ hnew, List.mem_map, toList, List.mem_map]
  simp only [mem_put_new fun b hb h => hnew b hb (Std.OrientedCmp.eq_symm h)]
  constructor
  · rintro ⟨e, rfl | he, rfl⟩
    · exact .inl rfl
    · exact .inr ⟨e, he, rfl⟩
  · rintro (rfl | ⟨e, he, rfl⟩)
    · exact ⟨_, .inl rfl, rfl⟩
    · exact ⟨e, .inr he, rfl⟩

theorem getDocument_erase {s : DocumentSet c} {key key' : DocumentKey} :
    (s.erase key).getDocument key' = if key' = key then none else s.getDocument key' := by
  refine Option.ext fun d => ?_
  rw [getDocument_eq_some, mem_erase]
  split
  · next h => simp [h]
  · next h =>
    rw [getDocument_eq_some]
    exact ⟨fun ⟨⟨hd, _⟩, hk⟩ => ⟨hd, hk⟩, fun ⟨hd, hk⟩ => ⟨⟨hd, fun he => h (hk.symm.trans he)⟩, hk⟩⟩

theorem getDocument_insert {s : DocumentSet c} {document : Document} {key : DocumentKey} :
    (s.insert (some document)).getDocument key = if key = document.key then some document else s.getDocument key := by
  refine Option.ext fun d => ?_
  rw [getDocument_eq_some, mem_insert]
  split
  · next h =>
    rw [Option.some.injEq]
    constructor
    · rintro ⟨rfl | ⟨-, hne⟩, hk⟩
      · rfl
      · exact absurd (hk.trans h) hne
    · rintro rfl
      exact ⟨.inl rfl, h.symm⟩
  · next h =>
    rw [getDocument_eq_some]
    constructor
    · rintro ⟨rfl | ⟨hd, -⟩, hk⟩
      · exact absurd hk.symm h
      · exact ⟨hd, hk⟩
    · rintro ⟨hd, rfl⟩
      exact ⟨.inr ⟨hd, h⟩, rfl⟩

theorem nodup (s : DocumentSet c) : s.toList.Nodup :=
  s.sorted.imp fun {a b} h heq => by
    have hself : c.compare b b = .eq := Std.ReflCmp.compare_self
    rw [heq, hself] at h
    cases h

theorem toList_eq_of_getDocument {s s' : DocumentSet c} (h : ∀ key, s.getDocument key = s'.getDocument key) : s.toList = s'.toList := by
  have hmem (s : DocumentSet c) (d : Document) : d ∈ s.toList ↔ s.getDocument d.key = some d := by
    rw [getDocument_eq_some, and_iff_left rfl]
  have hperm : s.toList.Perm s'.toList :=
    (List.perm_ext_iff_of_nodup s.nodup s'.nodup).2 fun d => by rw [hmem, hmem, h]
  exact hperm.eq_of_pairwise (fun a b _ _ hab hba => absurd (Std.OrientedCmp.gt_of_lt hab) (by simp [hba])) s.sorted s'.sorted

theorem toList_empty : (empty : DocumentSet c).toList = [] := rfl

theorem getFirstDocument_eq (s : DocumentSet c) : s.getFirstDocument = s.toList.head? := by
  rw [getFirstDocument, SortedMap.min?_eq, toList, List.head?_map]

theorem getLastDocument_eq (s : DocumentSet c) : s.getLastDocument = s.toList.getLast? := by
  rw [getLastDocument, SortedMap.max?_eq, toList, List.getLast?_map]

theorem size_eq (s : DocumentSet c) : s.size = s.toList.length := by
  have hindex : (s.index.entries.map (·.2)).Nodup := by
    refine List.pairwise_map.2 (s.index.sorted.imp_of_mem fun {a b} ha hb hlt heq => ?_)
    rw [((s.agree a).1 ha).1, ((s.agree b).1 hb).1, heq] at hlt
    have hself : b.2.key.compareTo b.2.key = .eq := Std.ReflCmp.compare_self
    rw [hself] at hlt
    cases hlt
  have hperm : (s.index.entries.map (·.2)).Perm s.toList := by
    refine (List.perm_ext_iff_of_nodup hindex s.nodup).2 fun d => ?_
    rw [mem_toList, List.mem_map]
    exact ⟨fun ⟨e, he, hd⟩ => by rw [← hd, ← ((s.agree e).1 he).1]; exact he, fun hd => ⟨_, hd, rfl⟩⟩
  rw [size, s.index.size_eq, ← hperm.length_eq, List.length_map]

/-- A document's place is the number of documents before it. -/
theorem indexOf_eq {s : DocumentSet c} {d : Document} (h : d ∈ s.toList) :
    s.indexOf d.key = some (s.toList.countP fun e => c.compare d e == .gt) := by
  obtain ⟨e, he, rfl⟩ := List.mem_map.1 h
  rw [indexOf, getDocument_eq_some.2 ⟨h, rfl⟩, Option.bind_some, SortedMap.findIndex_eq,
    find_of_mem s.sortedSet.sorted he Std.ReflCmp.compare_self, toList, List.countP_map]
  rfl

end DocumentSet

/-! ## Sets of keys -/

abbrev DocumentKeySet := SortedMap DocumentKey Unit DocumentKey.compareTo

namespace DocumentKeySet

variable {keys : DocumentKeySet} {key key' : DocumentKey}

def insert (keys : DocumentKeySet) (key : DocumentKey) : DocumentKeySet := Immutable.SortedMap.insert key () keys

def toList (keys : DocumentKeySet) : List DocumentKey := keys.entries.map (·.1)

theorem contains_eq : keys.contains key = (get DocumentKey.compareTo key keys.entries).isSome := by
  rw [SortedMap.contains_eq, Entries.get, Option.isSome_map]

@[simp] theorem contains_insert : (insert keys key).contains key' = (decide (key' = key) || keys.contains key') := by
  rw [contains_eq, contains_eq, insert, Immutable.SortedMap.get_insert]
  by_cases h : key' = key
  · have hself : key'.compareTo key = .eq := h ▸ Std.ReflCmp.compare_self
    simp [h, Std.ReflCmp.compare_self]
  · have hne : key'.compareTo key ≠ .eq := fun hk => h (Std.LawfulEqCmp.eq_of_compare hk)
    simp [h, hne]

@[simp] theorem contains_erase : (keys.erase key).contains key' = (!decide (key' = key) && keys.contains key') := by
  rw [contains_eq, contains_eq, Immutable.SortedMap.get_erase]
  by_cases h : key' = key
  · simp [h, Std.ReflCmp.compare_self]
  · have hne : key'.compareTo key ≠ .eq := fun hk => h (Std.LawfulEqCmp.eq_of_compare hk)
    simp [h, hne]

@[simp] theorem contains_empty : (Immutable.SortedMap.empty : DocumentKeySet).contains key = false := rfl

theorem mem_toList : key ∈ toList keys ↔ keys.contains key := by
  rw [SortedMap.contains_eq, toList, List.mem_map]
  constructor
  · rintro ⟨e, he, rfl⟩
    rw [find_of_mem keys.sorted he Std.ReflCmp.compare_self]
    rfl
  · intro h
    obtain ⟨e, he⟩ := Option.isSome_iff_exists.1 h
    obtain ⟨hmem, hk⟩ := find_some he
    exact ⟨e, hmem, (Std.LawfulEqCmp.eq_of_compare hk).symm⟩

theorem size_eq_zero : keys.size = 0 ↔ ∀ key, keys.contains key = false := by
  have hlen : keys.size = keys.toList.length := by rw [Immutable.SortedMap.size_eq, toList, List.length_map]
  rw [hlen, List.length_eq_zero_iff, List.eq_nil_iff_forall_not_mem]
  exact forall_congr' fun key => by rw [mem_toList, Bool.not_eq_true]

end DocumentKeySet

end Client
