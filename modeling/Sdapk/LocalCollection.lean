/-
A collection as the client's local store has it, and the app's query of it:
where the store holds a collection's documents, the client finds for
`orderBy(field, descending: true).limit(n)` what the query is taken to find
everywhere else in this development, and that is what a `get()` is answered with.
-/
import Sdapk.Firestore
import Sdapk.GetDocuments

namespace Client

open Dart Firestore

/-! ## Values -/

/-- A value as the client has it; a date is written as a timestamp. -/
def value : Dyn → Value
  | .null => .null
  | .int i => .integer (Int64.ofInt i)
  | .str s => .string s
  | .dateTime d => .timestamp (Timestamp.fromDate d).seconds (Timestamp.fromDate d).nanoseconds
  | .timestamp t => .timestamp t.seconds t.nanoseconds

/-- Values that a stored document has: 64-bit numbers, timestamps with a part of a second, no dates. -/
def Storable : Dyn → Prop
  | .int i => (Int64.ofInt i).toInt = i
  | .timestamp t => 0 ≤ t.nanoseconds ∧ t.nanoseconds < 1000000000
  | .dateTime _ => False
  | _ => True

/-- Seconds first and then nanoseconds is nanoseconds in all. -/
theorem compare_nanoseconds {s n s' n' : Int} (hn : 0 ≤ n ∧ n < 1000000000) (hn' : 0 ≤ n' ∧ n' < 1000000000) :
    compareTimestamps (s, n) (s', n') = Ord.compare (s * 1000000000 + n) (s' * 1000000000 + n') := by
  unfold compareTimestamps
  rcases lt_trichotomy s s' with h | h | h
  · have hlt : s * 1000000000 + n < s' * 1000000000 + n' := by omega
    rw [compare_lt_iff_lt.2 h, compare_lt_iff_lt.2 hlt]
    rfl
  · subst h
    rw [compare_eq_iff_eq.2 rfl, Ordering.eq_then]
    exact (compare_map (fun {a b} hab => by omega) n n').symm
  · have hgt : s' * 1000000000 + n' < s * 1000000000 + n := by omega
    rw [compare_gt_iff_gt.2 h, compare_gt_iff_gt.2 hgt]
    rfl

/-- The client puts values in the order of a query. -/
theorem compare_value {v w : Dyn} (hv : Storable v) (hw : Storable w) :
    (value v).compare (value w) = Ord.compare (sortKey v) (sortKey w) := by
  have hinner {i j : Int} (n : Nat) : Ord.compare (toLex (n, toLex (i, ""))) (toLex (n, toLex (j, ""))) = Ord.compare i j := by
    change (Ord.compare n n).then ((Ord.compare i j).then .eq) = _
    rw [compare_eq_iff_eq.2 rfl, Ordering.eq_then, Ordering.then_eq]
  cases v <;> cases w
  case int.int i j =>
    have hi : (Int64.ofInt i).toInt = i := hv
    have hj : (Int64.ofInt j).toInt = j := hw
    change Ord.compare (Int64.ofInt i).toInt (Int64.ofInt j).toInt = _
    rw [hi, hj]
    exact (hinner 1).symm
  case timestamp.timestamp t u => exact (compare_nanoseconds hv hw).trans (hinner 2).symm
  case str.str s t =>
    change Ord.compare s t = (Ord.compare 3 3).then ((Ord.compare (0 : Int) 0).then (Ord.compare s t))
    rfl
  all_goals first | exact hv.elim | exact hw.elim | rfl

/-! ## Collections -/

theorem compareTo_documentKey (collection a b : String) :
    (documentKey collection a).compareTo (documentKey collection b) = Ord.compare a b := by
  unfold DocumentKey.compareTo documentKey
  rw [List.compareLex_cons_cons, List.compareLex_cons_cons, List.compareLex_nil_nil, compare_eq_iff_eq.2 rfl, Ordering.eq_then,
    Ordering.then_eq]

/-- A document of the client with the fields of one of a collection. -/
structure Reads (collection : String) (m : Document) (e : String × Doc) : Prop where
  key : m.key = documentKey collection e.1
  fields : ∀ name, m.fields.lookup name = (e.2.lookup name).map value

/-- The local store has a collection: each of its documents as it was written, and no others. -/
structure Holds (docs : Documents) (collection : String) (c : Collection) : Prop where
  found : ∀ e ∈ c, ∃ m, docs.get (documentKey collection e.1) = some m ∧ m.isFoundDocument ∧ Reads collection m e
  only : ∀ name m, docs.get (documentKey collection name) = some m → m.isFoundDocument → ∃ e ∈ c, e.1 = name

/-- A collection's document as the local store has it. -/
def storedAs (docs : Documents) (collection : String) (e : String × Doc) : Document :=
  (docs.get (documentKey collection e.1)).getD (.invalidDocument (documentKey collection e.1))

section

variable {docs : Documents} {collection field : String} {c : Collection} {n : Nat} {e e' : String × Doc}

theorem Holds.storedAs (h : Holds docs collection c) (he : e ∈ c) :
    docs.get (documentKey collection e.1) = some (storedAs docs collection e) ∧ (storedAs docs collection e).isFoundDocument ∧
      Reads collection (storedAs docs collection e) e := by
  obtain ⟨m, hm, hfound, hreads⟩ := h.found e he
  have heq : Client.storedAs docs collection e = m := by rw [Client.storedAs, hm, Option.getD_some]
  rw [heq]
  exact ⟨hm, hfound, hreads⟩

theorem Reads.get {m : Document} (h : Reads collection m e) (hf : (e.2.lookup field).isSome) :
    m.field [field] = some (value (e.2.get field)) := by
  obtain ⟨v, hv⟩ := Option.isSome_iff_exists.1 hf
  rw [field_single, h.fields, DynMap.get, hv]
  rfl

theorem newest_orderBys (hfield : field ≠ kDocumentKeyPath) :
    (Query.newest collection field n).orderBys = [⟨[field], .descending⟩, ⟨[kDocumentKeyPath], .descending⟩] := by
  have hkey : isKeyFieldPath [field] = false := by simpa [isKeyFieldPath] using hfield
  simp [Query.orderBys, orderBys, inequalityFilterField, Query.newest, hkey]

/-- The client puts a collection's documents where the query does. -/
theorem newest_comparator (hfield : field ≠ kDocumentKeyPath) {m m' : Document} (hm : Reads collection m e) (hm' : Reads collection m' e')
    (hf : (e.2.lookup field).isSome) (hf' : (e'.2.lookup field).isSome) (hs : Storable (e.2.get field)) (hs' : Storable (e'.2.get field)) :
    (Query.newest collection field n).comparator m m' = (Ord.compare (docKey field e) (docKey field e')).swap := by
  have hkey : isKeyFieldPath [field] = false := by simpa [isKeyFieldPath] using hfield
  have hkey' : isKeyFieldPath [kDocumentKeyPath] = true := rfl
  have hdoc : Ord.compare (docKey field e) (docKey field e') =
      (Ord.compare (sortKey (e.2.get field)) (sortKey (e'.2.get field))).then (Ord.compare e.1 e'.1) := rfl
  rw [hdoc, ← compare_value hs hs', Ordering.swap_then, Query.comparator, newest_orderBys hfield]
  simp only [List.foldr_cons, List.foldr_nil, Ordering.then_eq, OrderBy.compare, hkey, hkey', Bool.false_eq_true, if_false, if_true,
    Direction.applyTo, hm.get hf, hm'.get hf', compareFields, hm.key, hm'.key, compareTo_documentKey]

theorem newest_matches (hfield : field ≠ kDocumentKeyPath) {m : Document} :
    (Query.newest collection field n).matchesDocument m ↔
      m.isFoundDocument ∧ (∃ name, m.key = documentKey collection name) ∧ (m.field [field]).isSome := by
  have hkey : isKeyFieldPath [field] = false := by simpa [isKeyFieldPath] using hfield
  have hkey' : isKeyFieldPath [kDocumentKeyPath] = true := rfl
  have hpath : (Query.newest collection field n).matchesPathAndCollectionGroup m ↔ ∃ name, m.key = documentKey collection name := by
    unfold documentKey Query.matchesPathAndCollectionGroup
    obtain ⟨⟨path, valid⟩, _⟩ := m
    rcases path with _ | ⟨x, _ | ⟨y, _ | ⟨z, rest⟩⟩⟩
    · simp [Query.newest]
    · simp [Query.newest]
    · simpa [Query.newest] using eq_comm
    · simp [Query.newest]
  have horder : (Query.newest collection field n).matchesOrderBy m ↔ (m.field [field]).isSome := by
    rw [Query.matchesOrderBy, newest_orderBys hfield]
    simp [hkey, hkey']
  have hfilters : (Query.newest collection field n).matchesFilters m = true := rfl
  have hbounds : (Query.newest collection field n).matchesBounds m = some true := rfl
  unfold Query.matchesDocument
  simp [hfilters, hbounds, hpath, horder, and_assoc]

/-- The names of a query's documents are those of the collection, each once. -/
theorem orderByDescending_strict : (orderByDescending c field).Pairwise fun a b => docKey field b < docKey field a := by
  have hnames : (orderByDescending c field).Pairwise fun a b => a.1 ≠ b.1 := by
    refine Ranking.descending_perm.symm.pairwise (R := fun a b : String × Doc => a.1 ≠ b.1) ?_ fun h => h.symm
    exact (c.sorted.imp fun h => h.ne).filter _
  have hsorted : (orderByDescending c field).Pairwise fun a b => docKey field b ≤ docKey field a := Ranking.descending_pairwise
  refine (hsorted.and hnames).imp fun {a b} hab => lt_of_le_of_ne hab.1 fun heq => hab.2 ?_
  exact congrArg (fun k => (ofLex k).2) heq.symm

/-- **The client finds what the query does**, document for document. -/
theorem found_newest (h : Holds docs collection c) (hfield : field ≠ kDocumentKeyPath) (hs : ∀ e ∈ c, Storable (e.2.get field)) :
    (Query.newest collection field n).found docs = (orderByDescending c field).map (storedAs docs collection) := by
  have hmem {e : String × Doc} : e ∈ orderByDescending c field ↔ e ∈ c ∧ (e.2.lookup field).isSome := mem_orderByDescending
  have hstrict : Ranks.Strict (Query.newest collection field n).comparator ((orderByDescending c field).map (storedAs docs collection)) := by
    refine List.pairwise_map.2 (orderByDescending_strict.imp_of_mem fun {a b} ha hb hlt => ?_)
    obtain ⟨ha, hfa⟩ := hmem.1 ha
    obtain ⟨hb, hfb⟩ := hmem.1 hb
    rw [newest_comparator hfield (h.storedAs ha).2.2 (h.storedAs hb).2.2 hfa hfb (hs a ha) (hs b hb), compare_gt_iff_gt.2 hlt]
    rfl
  refine Ranks.Strict.eq_of_mem_iff Query.found_sorted hstrict fun m => ?_
  rw [Query.mem_found, List.mem_map, Documents.Matching, newest_matches hfield]
  constructor
  · rintro ⟨hm, hfound, ⟨name, hkey⟩, hf⟩
    rw [hkey] at hm
    obtain ⟨e, he, rfl⟩ := h.only name m hm hfound
    obtain ⟨hstored, -, hreads⟩ := h.storedAs he
    obtain rfl : storedAs docs collection e = m := Option.some.inj (hstored.symm.trans hm)
    rw [field_single, hreads.fields, Option.isSome_map] at hf
    exact ⟨e, hmem.2 ⟨he, hf⟩, rfl⟩
  · rintro ⟨e, he, rfl⟩
    obtain ⟨he, hf⟩ := hmem.1 he
    obtain ⟨hstored, hfound, hreads⟩ := h.storedAs he
    rw [hreads.key]
    exact ⟨hstored, hfound, ⟨e.1, rfl⟩, by rw [hreads.get hf]; rfl⟩

theorem eq_of_equals_value {v : Value} {d : Dyn} (h : v.equals (value d) = true) : v = value d := by
  unfold Value.equals at h
  simp only [Bool.and_eq_true, decide_eq_true_eq] at h
  obtain ⟨htype, h⟩ := h
  cases d <;> cases v <;> simp_all [value, getTypeOrder]

/-- A document equal to one with the fields of a collection's has them too. -/
theorem Reads.of_same {m m' : Document} (h : m'.Same m) (hreads : Reads collection m e) : Reads collection m' e where
  key := h.key.trans hreads.key
  fields name := by
    have hlookup := h.lookup name
    rw [hreads.fields] at hlookup
    cases hd : e.2.lookup name with
    | none =>
      rw [hd] at hlookup
      cases hl : m'.fields.lookup name with
      | none => rfl
      | some v =>
        rw [hl] at hlookup
        cases hlookup
    | some d =>
      rw [hd] at hlookup
      cases hl : m'.fields.lookup name with
      | none =>
        rw [hl] at hlookup
        cases hlookup
      | some v =>
        rw [hl, Option.map_some, Option.rel_some_some] at hlookup
        rcases hlookup with rfl | hequals
        · rfl
        · rw [eq_of_equals_value hequals, Option.map_some]

theorem result_newest (h : Holds docs collection c) (hfield : field ≠ kDocumentKeyPath) (hs : ∀ e ∈ c, Storable (e.2.get field)) :
    List.Forall₂ (Reads collection) ((Query.newest collection field n).result docs) ((orderByDescending c field).take n) := by
  have hresult : (Query.newest collection field n).result docs = ((Query.newest collection field n).found docs).take n := rfl
  rw [hresult, found_newest h hfield hs, ← List.map_take]
  refine List.forall₂_map_left_iff.2 (List.forall₂_same.2 fun e he => ?_)
  exact (h.storedAs (mem_orderByDescending.1 (List.mem_of_mem_take he)).1).2.2

/-- A snapshot of the documents that a query of a collection returns, which
the server has confirmed unless the client is offline or was not to ask it. -/
structure Loads (collection field : String) (n : Nat) (source : Source) (m : EventManager (.newest collection field n))
    (event : ViewSnapshot (.newest collection field n)) : Prop where
  documents : ∀ c, Holds m.docs collection c → (∀ e ∈ c, Storable (e.2.get field)) →
    (∀ d, m.docs.Matching (.newest collection field n) d → d.hasCommittedMutations = false) →
    List.Forall₂ (fun s d => ∀ name, s.document.fields.lookup name = (d.lookup name).map value) event.forEachDocument
      (Firestore.query c field n)
  fromCache : event.fromCache = true → source = .cache ∨ m.onlineState = .offline
  synced : event.fromCache = false → ∃ v, m.view = some v ∧ v.syncState = .synced

/-- There is nothing to answer a read with, which may ask the server, while the client is not offline and the view not current. -/
theorem Loads.not_of_stale {source : Source} {m : EventManager (.newest collection field n)} (h : m.Inv) (hsource : source ≠ .cache)
    (honline : m.onlineState ≠ .offline) (hstale : m.outline.remote.any Remote.current = false)
    {event : ViewSnapshot (.newest collection field n)} : ¬Loads collection field n source m event := by
  intro hloads
  cases hc : event.fromCache with
  | true => exact (hloads.fromCache hc).elim hsource honline
  | false =>
    obtain ⟨v, hv, hsynced⟩ := hloads.synced hc
    exact Bool.false_ne_true (hstale.symm.trans (h.current_of_synced hv hsynced))

/-- **A load reads what the query finds.** A `get()` of the newest documents of
a collection waits for the server, or has been answered, once: with the error
the server rejected it with, or at a moment when the client had all it needs to
answer, with the documents that `orderBy` and `limit` stand for, if the local
store held the collection just then and no acknowledged write was yet to be sent
once more; and unless the client was offline, the server has confirmed them. -/
theorem load_reads (hn : n ≠ kNoLimit) (hfield : field ≠ kDocumentKeyPath) {acts₀ : List Act}
    {m : EventManager (.newest collection field n)} (hm : (EventManager.create _ docs).run acts₀ = some m) (source : Source)
    (remoteKeys : DocumentKeySet) (currentSyncState : SyncState) (resumeToken : List UInt8) :
    ∃ r₀, GetDocuments.get m source remoteKeys currentSyncState resumeToken = some r₀ ∧ r₀.source = source ∧
      ∀ acts r, r₀.run acts = some r → r₀.Stands (Loads collection field n source) acts r := by
  have hlim : (Query.newest collection field n).LimitInRange := Query.newest_limitInRange hn
  obtain ⟨r₀, hget, hsource, hstands⟩ := GetDocuments.get_stands (Query.newest_plain collection field n) hlim hm source remoteKeys
    currentSyncState resumeToken
  refine ⟨r₀, hget, hsource, fun acts r hrun => (hstands acts r hrun).imp fun m₁ event hfinds =>
    ⟨fun c hholds hs hcommitted => ?_, hfinds.fromCache, hfinds.synced⟩⟩
  have hsame := List.forall₂_map_left_iff.1 (hfinds.result hcommitted)
  unfold Firestore.query
  refine List.forall₂_map_right_iff.2 (Ranks.forall₂_trans hsame (result_newest hholds hfield hs) fun _ _ _ hsm hreads => ?_)
  exact (Reads.of_same hsm hreads).fields

/-- A doctor as the client has it, and one that was stored without a date. -/
def dated (name : String) (n : Int64) : Document :=
  ⟨documentKey "doctors" name, .foundDocument, (0, 0), .synced, [("id", .string name), ("createdAt", .integer n)], rfl, rfl⟩

def undated (name : String) : Document := ⟨documentKey "doctors" name, .foundDocument, (0, 0), .synced, [("id", .string name)], rfl, rfl⟩

/-- Two of them made at one time. -/
def fourDoctors : Collection :=
  ⟨[("a", [("id", .str "a"), ("createdAt", .int 1)]), ("b", [("id", .str "b"), ("createdAt", .int 2)]),
    ("c", [("id", .str "c"), ("createdAt", .int 2)]), ("d", [("id", .str "d")])], by decide⟩

theorem query_fourDoctors : Firestore.query fourDoctors "createdAt" 2 =
    [[("id", .str "c"), ("createdAt", .int 2)], [("id", .str "b"), ("createdAt", .int 2)]] := by
  decide

def fewDoctors : Documents := (Documents.single (dated "a" 1)).applied (.single (dated "b" 2))

def moreDoctors : Documents := (Documents.single (dated "c" 2)).applied (.single (undated "d"))

theorem entries_moreDoctors : (fewDoctors.applied moreDoctors).entries =
    [dated "a" 1, dated "b" 2, dated "c" 2, undated "d"].map fun d => (d.key, d) := rfl

theorem storable_fourDoctors : ∀ e ∈ fourDoctors, Storable (e.2.get "createdAt") := by
  intro e he
  change e ∈ [_, _, _, _] at he
  simp only [List.mem_cons, List.not_mem_nil, or_false] at he
  rcases he with rfl | rfl | rfl | rfl
  · exact (by decide : (Int64.ofInt 1).toInt = 1)
  · exact (by decide : (Int64.ofInt 2).toInt = 2)
  · exact (by decide : (Int64.ofInt 2).toInt = 2)
  · trivial

theorem found_fourDoctors : (Query.newest "doctors" "createdAt" 2).found (fewDoctors.applied moreDoctors) =
    [dated "c" 2, dated "b" 2, dated "a" 1] :=
  Query.found_eq_of_perm (List.reverse_perm [dated "a" 1, dated "b" 2, dated "c" 2]).symm (by decide)

/-- The local store has them once the server has sent the rest. -/
theorem holds_fourDoctors : Holds (fewDoctors.applied moreDoctors) "doctors" fourDoctors := by
  have hget {m : Document} (hm : m ∈ [dated "a" 1, dated "b" 2, dated "c" 2, undated "d"]) :
      (fewDoctors.applied moreDoctors).get m.key = some m := by
    rw [Documents.get_eq_some, entries_moreDoctors]
    exact List.mem_map_of_mem hm
  have hdated (name : String) (n : Int64) (i : Int) (hn : Int64.ofInt i = n) :
      Reads "doctors" (dated name n) (name, [("id", .str name), ("createdAt", .int i)]) := by
    subst hn
    refine ⟨rfl, fun field => ?_⟩
    change List.lookup field [("id", Value.string name), ("createdAt", .integer (Int64.ofInt i))] = _
    rw [List.lookup_cons, List.lookup_cons, List.lookup_cons, List.lookup_cons]
    cases field == "id" <;> cases field == "createdAt" <;> rfl
  have hundated (name : String) : Reads "doctors" (undated name) (name, [("id", .str name)]) := by
    refine ⟨rfl, fun field => ?_⟩
    change List.lookup field [("id", Value.string name)] = _
    rw [List.lookup_cons, List.lookup_cons]
    cases field == "id" <;> rfl
  refine ⟨fun e he => ?_, fun name m hm _ => ?_⟩
  · change e ∈ [_, _, _, _] at he
    simp only [List.mem_cons, List.not_mem_nil, or_false] at he
    rcases he with rfl | rfl | rfl | rfl
    · exact ⟨dated "a" 1, hget (m := dated "a" 1) (by simp), rfl, hdated "a" 1 1 rfl⟩
    · exact ⟨dated "b" 2, hget (m := dated "b" 2) (by simp), rfl, hdated "b" 2 2 rfl⟩
    · exact ⟨dated "c" 2, hget (m := dated "c" 2) (by simp), rfl, hdated "c" 2 2 rfl⟩
    · exact ⟨undated "d", hget (m := undated "d") (by simp), rfl, hundated "d"⟩
  · rw [Documents.get_eq_some, entries_moreDoctors] at hm
    obtain ⟨d, hd, heq⟩ := List.mem_map.1 hm
    have hname : d.key.path = ["doctors", name] := congrArg (fun e => e.1.path) heq
    simp only [List.mem_cons, List.not_mem_nil, or_false] at hd
    change ∃ e ∈ fourDoctors.entries, e.1 = name
    rcases hd with rfl | rfl | rfl | rfl <;>
      obtain rfl : _ = name := (List.cons.inj (List.cons.inj hname).2).1 <;> decide

theorem result_fourDoctors {docs : Documents} (hdocs : docs = fewDoctors.applied moreDoctors) :
    (Query.newest "doctors" "createdAt" 2).result docs = [dated "c" 2, dated "b" 2] := by
  subst hdocs
  exact congrArg (List.take 2) found_fourDoctors

theorem committed_fourDoctors {docs : Documents} (hdocs : docs = fewDoctors.applied moreDoctors) {m : Document}
    (hm : docs.Matching (.newest "doctors" "createdAt" 2) m) : m.hasCommittedMutations = false := by
  subst hdocs
  have hm := Query.mem_found.2 hm
  rw [found_fourDoctors] at hm
  simp only [List.mem_cons, List.not_mem_nil, or_false] at hm
  rcases hm with rfl | rfl | rfl <;> rfl

/-- The view of them is synced once the server has reported the two that it shows. -/
theorem synced_fourDoctors {m : EventManager (.newest "doctors" "createdAt" 2)} (h : m.Inv) {v : View (.newest "doctors" "createdAt" 2)}
    (hv : m.view = some v) {w : Remote} (hdocs : m.docs = fewDoctors.applied moreDoctors) (hw : m.outline.remote = some w)
    (hcur : w.current = true) (hb : w.synced (documentKey "doctors" "b") = true) (hc : w.synced (documentKey "doctors" "c") = true) :
    v.syncState = .synced := by
  refine h.synced_of_reported hv hw hcur fun d hd => ?_
  have hresult := (h.of_view hv).shows.result (Query.newest_plain "doctors" "createdAt" 2) (Query.newest_limitInRange (by decide))
    fun _ => committed_fourDoctors hdocs
  rw [result_fourDoctors hdocs] at hresult
  obtain ⟨m, hm, hsame⟩ : ∃ m ∈ [dated "c" 2, dated "b" 2], d.Same m := mem_of_forall₂ hresult.flip hd
  rw [hsame.key]
  rcases List.mem_pair.1 hm with rfl | rfl
  · exact hc
  · exact hb

/-- A read begins, the server sends the rest, and removes a doctor again. -/
def readActs : List Act :=
  [ .changed moreDoctors (some ⟨[], true, doctorKeys ["b", "c"], .empty, .empty⟩), .remove 0, .changed (.single (removedDoctor "c")) none ]

/-- A `get()` waits for the server, is answered with the last two doctors, and told no more. -/
theorem load_reads_answered :
    ∃ r₀ r documents, GetDocuments.get (EventManager.create (.newest "doctors" "createdAt" 2) fewDoctors) .default .empty .none [] = some r₀ ∧
      r₀.run readActs = some r ∧ r.answers = [.ok documents] ∧
      List.Forall₂ (fun s d => ∀ name, s.document.fields.lookup name = (d.lookup name).map value) documents
        [[("id", .str "c"), ("createdAt", .int 2)], [("id", .str "b"), ("createdAt", .int 2)]] := by
  have hplain := Query.newest_plain "doctors" "createdAt" 2
  have hlim : (Query.newest "doctors" "createdAt" 2).LimitInRange := Query.newest_limitInRange (by decide)
  obtain ⟨r₀, hget, hsource, hstands⟩ := load_reads (by decide) (by decide)
    (show (EventManager.create (.newest "doctors" "createdAt" 2) fewDoctors).run [] = some _ from rfl) .default .empty .none []
  have hclient₀ := GetDocuments.get_client (by decide) hget
  obtain ⟨client₀, hadd, hinv₀, houtline₀, -⟩ := EventManager.addQueryListener_spec hplain hlim (EventManager.create_inv _ fewDoctors)
    GetDocuments.options .empty .none []
  obtain rfl : client₀ = r₀.client := Option.some.inj (hadd.symm.trans hclient₀)
  -- it is not answered at once: the view is not current, and the client not offline
  have hnot event : ¬Loads "doctors" "createdAt" 2 .default r₀.client event := by
    have honline : r₀.client.onlineState = .unknown := congrArg Outline.onlineState houtline₀
    exact Loads.not_of_stale hinv₀ (by decide) (by rw [honline]; decide) (by rw [houtline₀]; rfl)
  -- the server sends the rest, which is all there is: the view is synced, and so the read is not waiting
  obtain ⟨r₁, hr₁, hinv₁, houtline₁⟩ := GetDocuments.Read.exists_step hplain hlim hinv₀
    (a := .changed moreDoctors (some ⟨[], true, doctorKeys ["b", "c"], .empty, .empty⟩)) rfl (by rw [houtline₀]; decide)
  rw [houtline₀] at houtline₁
  have hrun₁ : r₀.run (readActs.take 1) = some r₁ := by
    change (r₀.step _).bind _ = _
    rw [hr₁]
    rfl
  have hdocs : r₁.client.docs = fewDoctors.applied moreDoctors := congrArg Outline.docs houtline₁
  have hrejected error : .rejected error ∉ readActs := by simp [readActs]
  have hnext : r₁.answers ≠ [] ∧ r₁.registration = none := by
    cases hstands _ r₁ hrun₁ with
    | waiting h =>
      obtain ⟨v, hv, hlocal⟩ := h.view
      rw [synced_fourDoctors hinv₁ hv hdocs (congrArg Outline.remote houtline₁) rfl (by decide) (by decide)] at hlocal
      cases hlocal
    | @rejected acts₁ acts₂ r error hacts h hanswers =>
      have hmem : .rejected error ∈ readActs.take 1 := hacts ▸ by simp
      exact absurd (List.mem_of_mem_take hmem) (hrejected error)
    | answered hacts h hloads hanswers hremoved => exact ⟨by rw [hanswers]; exact List.cons_ne_nil _ _, hremoved⟩
  -- what comes then is not told
  obtain ⟨r₂, hr₂, hinv₂, houtline₂⟩ := GetDocuments.Read.exists_step hplain hlim hinv₁ (a := .remove 0)
    (by simp [GetDocuments.Read.permits, hnext.2]) (by rw [houtline₁]; decide)
  rw [houtline₁] at houtline₂
  obtain ⟨r₃, hr₃, hinv₃, houtline₃⟩ := GetDocuments.Read.exists_step hplain hlim hinv₂
    (a := .changed (.single (removedDoctor "c")) none) rfl (by rw [houtline₂]; decide)
  rw [houtline₂] at houtline₃
  have hrun₃ : r₀.run readActs = some r₃ := by
    change (r₀.step _).bind (fun r => (r.step _).bind fun r => (r.step _).bind _) = _
    rw [hr₁, Option.bind_some, hr₂, Option.bind_some, hr₃]
    rfl
  cases hstands _ r₃ hrun₃ with
  | waiting h =>
    obtain ⟨v, hv, -⟩ := h.view
    cases (EventManager.outline_remote hv).symm.trans (congrArg Outline.remote houtline₃)
  | @rejected acts₁ acts₂ r error hacts h hanswers => exact absurd (hacts ▸ by simp) (hrejected error)
  | @answered acts₁ acts₂ r event hacts h hloads hanswers hremoved =>
    rcases List.prefix_cons_iff.1 (h.prefix_of_answered hacts.symm hrun₁ hnext.1) with rfl | ⟨acts₁, rfl, hnil⟩
    · obtain rfl : r₀ = r := Option.some.inj h.run
      exact absurd hloads (hnot event)
    · obtain rfl := List.prefix_nil.1 hnil
      obtain rfl : r₁ = r := Option.some.inj (hrun₁.symm.trans h.run)
      have hdocuments := hloads.documents fourDoctors (hdocs ▸ holds_fourDoctors) storable_fourDoctors fun _ => committed_fourDoctors hdocs
      rw [query_fourDoctors] at hdocuments
      refine ⟨r₀, r₃, event.forEachDocument, hget, hrun₃, ?_, hdocuments⟩
      rw [hanswers, hsource]
      simp [GetDocuments.answer]

end

end Client
