/-
The register behind both notifiers: numbers with audit fields, and nothing
of what a patient or a doctor is. `Shows` relates a collection and a list of
records to a ledger, and each operation of a screen does to the one what the
ledger's operation does to the other, and completes where it does.
-/
import Sdapk.Session

open Dart Firestore Entity Screen Register

/-- The audit fields of a document. -/
structure AuditDoc where
  createdAt : Dyn
  createdBy : Dyn
  updatedAt : Dyn
  updatedBy : Dyn
  deriving DecidableEq

/-- The audit fields as they are stored. -/
def Audit.stored (a : Audit) : AuditDoc :=
  { createdAt := Firestore.stored (.ofDateTime a.createdAt), createdBy := .ofString a.createdBy,
    updatedAt := Firestore.stored (.ofDateTime a.updatedAt), updatedBy := .ofString a.updatedBy }

namespace AuditDoc

def of (d : Doc) : AuditDoc :=
  { createdAt := d.get "createdAt", createdBy := d.get "createdBy", updatedAt := d.get "updatedAt",
    updatedBy := d.get "updatedBy" }

/-- A text, where there is one. -/
def text : Dyn → Option String
  | .str s => some s
  | _ => none

/-- What a load makes of the audit fields. -/
def reload (d : AuditDoc) : Audit :=
  { createdAt := d.createdAt.tryParseDate, createdBy := text d.createdBy.orEmpty,
    updatedAt := d.updatedAt.tryParseDate, updatedBy := text d.updatedBy.orEmpty }

@[simp] theorem reload_stored (a : Audit) : a.stored.reload = a.reloaded := by
  simp [Audit.stored, reload, Audit.reloaded, text]

@[simp] theorem of_doc {R : Type} [Entity R] (r : R) : of (doc r) = (audit r).stored := by
  simp [of, Audit.stored]

end AuditDoc

/-- Documents by the text of their number, and the list. -/
structure Ledger where
  docs : SortedMap String AuditDoc
  state : List (String × Audit)

namespace Ledger

/-- The entries, latest first. -/
def latest (docs : SortedMap String AuditDoc) : List (String × AuditDoc) :=
  Ranking.descending (fun e => toLex (sortKey e.2.createdAt, e.1)) docs.entries

/-- The number after that of the latest entry. -/
def nextNumber : List (String × AuditDoc) → String
  | [] => "1"
  | e :: _ => ((tryParseInt e.1).getD 0 + 1).repr

/-! ## Operations, and whether they complete -/

def load (o : Outcome) (a : Ledger) : Ledger × Bool :=
  if o.query then ({ a with state := ((latest a.docs).take 25).map fun e => (e.1, e.2.reload) }, true) else (a, false)

def write (n : String) (x : Audit) (o : Outcome) (docs : SortedMap String AuditDoc) : SortedMap String AuditDoc :=
  if o.write then docs.set n x.stored else docs

def add (accepted : Bool) (user : String) (now : DateTime) (o : Outcome) (a : Ledger) : Ledger × Bool :=
  if accepted then
    if o.query then
      let n := nextNumber (latest a.docs)
      let x : Audit := { createdAt := some now, createdBy := some user, updatedAt := none, updatedBy := some "" }
      (⟨write n x o a.docs, (n, x) :: a.state⟩, true)
    else (a, false)
  else (a, true)

def edit (i : Nat) (accepted : Bool) (user : String) (now : DateTime) (o : Outcome) (a : Ledger) : Ledger × Bool :=
  match a.state[i]? with
  | none => (a, true)
  | some (n, x) =>
    if accepted then
      let x' : Audit := { createdAt := x.createdAt, createdBy := some (x.createdBy.getD ""), updatedAt := some now,
                          updatedBy := some user }
      let state := match a.state.findIdx? fun e => e.1 = n with
        | some j => a.state.set j (n, x')
        | none => a.state
      (⟨write n x' o a.docs, state⟩, true)
    else (a, true)

def remove (i : Nat) (o : Outcome) (a : Ledger) : Ledger × Bool :=
  match a.state[i]? with
  | none => (a, true)
  | some (n, _) => (⟨if o.write then a.docs.erase n else a.docs, a.state.filter fun e => e.1 ≠ n⟩, true)

/-! ## What a ledger shows of the records -/

variable {R : Type} [Screen R] {w : World R} {a : Ledger} {o : Outcome} {user : String} {now : DateTime} {n : Int} {r : R}

/-- A document by the text after the letter of its name. -/
def viewDoc (e : String × Doc) : String × AuditDoc := (substring e.1 2, AuditDoc.of e.2)

/-- A record by the text after the letter of its id. -/
def view (r : R) : String × Audit := (substring (key r) 2, audit r)

structure Shows (w : World R) (a : Ledger) : Prop where
  saved : Saved R w.docs
  kept : WellKept R w.docs
  keyed : ∀ r ∈ w.state, ∃ n : Int, 0 < n ∧ key r = idOf R n
  docs : w.docs.entries.map viewDoc = a.docs.entries
  state : w.state.map view = a.state

theorem viewDoc_entry (hr : key r = idOf R n) : viewDoc (key r, doc r) = (n.repr, (audit r).stored) := by
  rw [viewDoc, hr, substring_idOf, AuditDoc.of_doc]

theorem view_eq (hr : key r = idOf R n) : view r = (n.repr, audit r) := by
  rw [view, hr, substring_idOf]

/-- Ids with their letter stand as they do without it. -/
theorem idOf_lt_iff {e : String × Doc} {m : Int} (he : e.1 = idOf R m) :
    (idOf R n < e.1 ↔ n.repr < (viewDoc e).1) ∧ (e.1 < idOf R n ↔ (viewDoc e).1 < n.repr) := by
  simp only [viewDoc, he, substring_idOf, idOf_lt_idOf, and_self]

theorem idOf_eq_iff {k : String} {m : Int} (hk : k = idOf R m) : k = idOf R n ↔ substring k 2 = n.repr := by
  rw [hk, substring_idOf, idOf_injective.eq_iff, repr_injective.eq_iff]

theorem Shows.latest_eq (h : Shows w a) : latest a.docs = (orderByDescending w.docs "createdAt").map viewDoc := by
  have hfield : (w.docs.entries.filter fun e => (e.2.lookup "createdAt").isSome) = w.docs.entries :=
    List.filter_eq_self.2 h.kept.dated
  rw [latest, ← h.docs, orderByDescending, hfield]
  refine (Ranking.map_descending fun e he e' he' => ?_).symm
  obtain ⟨m, -, hm⟩ := h.kept.keyed e he
  obtain ⟨m', -, hm'⟩ := h.kept.keyed e' he'
  rw [docKey, docKey, Prod.Lex.toLex_le_toLex, Prod.Lex.toLex_le_toLex]
  refine or_congr_right (and_congr_right fun _ => ?_)
  simp only [viewDoc, hm, hm', substring_idOf]
  rw [← not_lt, ← not_lt, idOf_lt_idOf]

/-- The next id shows as the next number. -/
theorem Shows.generateId (h : Shows w a) (ho : o.query) :
    ∃ n : Int, 0 < n ∧ Notifier.generateId R o w.docs = .ok (idOf R n) ∧ nextNumber (latest a.docs) = n.repr := by
  rw [h.latest_eq]
  simp only [Notifier.generateId, ho, if_true, query]
  cases horder : orderByDescending w.docs "createdAt" with
  | nil => exact ⟨1, Int.one_pos, rfl, rfl⟩
  | cons e rest =>
    have he := (mem_orderByDescending.1 (horder ▸ List.mem_cons_self : e ∈ orderByDescending w.docs "createdAt")).1
    obtain ⟨n, hn, hid⟩ := h.kept.keyed e he
    refine ⟨n + 1, by omega, ?_, ?_⟩
    · exact nextId_cons (hid ▸ h.kept.named e he)
    · simp only [List.map_cons, nextNumber, viewDoc, hid, substring_idOf, tryParseInt_repr, Option.getD_some]

/-! ## Each operation shows as the ledger's -/

theorem Shows.empty : Shows (World.empty : World R) ⟨.empty, []⟩ :=
  ⟨saved_empty, wellKept_empty, fun _ h => absurd h List.not_mem_nil, rfl, rfl⟩

theorem Shows.load (h : Shows w a) :
    Shows (Notifier.load o w).1 (a.load o).1 ∧ (Notifier.load o w).2.isOk = (a.load o).2 := by
  unfold Notifier.load Ledger.load
  split
  · obtain ⟨rs, hrs⟩ := h.saved.exists_records
    have hl := loaded_eq hrs
    obtain ⟨-, hstate⟩ := h.saved.of_loaded hl
    rw [hl, h.latest_eq, hrs]
    refine ⟨⟨h.saved, h.kept, fun r hr => ?_, h.docs, ?_⟩, rfl⟩
    · obtain ⟨r₀, he, rfl⟩ := hstate r hr
      rw [key_reloaded]
      exact h.kept.keyed _ he
    · simp [view, viewDoc, Function.comp_def, List.map_take]
  · exact ⟨h, rfl⟩

/-- What is stored after a record is written shows as the number written. -/
theorem Shows.write (h : Shows w a) (hn : 0 < n) (hr : key r = idOf R n) :
    Saved R (Notifier.upsert r o w.docs) ∧ WellKept R (Notifier.upsert r o w.docs) ∧
      (Notifier.upsert r o w.docs).entries.map viewDoc = (Ledger.write n.repr (audit r) o a.docs).entries := by
  unfold Notifier.upsert Ledger.write
  split
  · refine ⟨h.saved.set, h.kept.set hn hr, SortedMap.map_entries_set h.docs (viewDoc_entry hr) fun e he => ?_⟩
    obtain ⟨m, -, hm⟩ := h.kept.keyed e he
    rw [hr]
    exact idOf_lt_iff hm
  · exact ⟨h.saved, h.kept, h.docs⟩

theorem Shows.add {changes : DynMap} {accepted : Bool} (h : Shows w a)
    (hacc : Forms.accepts (fields : List (Forms.FormField R)) (newForm R changes) = accepted) :
    Shows (saveAndValidate none (some user) (newForm R changes) now o w).1 (a.add accepted user now o).1 ∧
      (saveAndValidate none (some user) (newForm R changes) now o w).2.isOk = (a.add accepted user now o).2 := by
  rw [saveAndValidate_none, hacc]
  unfold Ledger.add
  cases accepted with
  | false => exact ⟨h, rfl⟩
  | true =>
    simp only [if_true, nonNull, Notifier.add, if_neg (newForm_ne_nil (R := R))]
    by_cases ho : o.query
    · obtain ⟨n, hn, hg, hnext⟩ := h.generateId ho
      obtain ⟨r, hr, -, hx⟩ := @newRecord_ok R _ changes (idOf R n) user now hacc
      have hr : newRecord (newForm R changes) (idOf R n) user now = .ok r := hr
      obtain ⟨hk, -, -⟩ := newRecord_stamped hr
      obtain ⟨hsaved, hkept, hdocs⟩ := h.write (o := o) hn hk
      rw [hx] at hdocs
      simp only [hg, hr, ho, if_true, hnext]
      refine ⟨⟨hsaved, hkept, fun r₀ hr₀ => ?_, hdocs, ?_⟩, rfl⟩
      · rcases List.mem_cons.1 hr₀ with rfl | hr₀
        · exact ⟨n, hn, hk⟩
        · exact h.keyed r₀ hr₀
      · simp only [awaited, List.map_cons, view_eq hk, hx, h.state]
    · have hg : Notifier.generateId R o w.docs = .error .firebaseException := if_neg ho
      simp only [hg, ho]
      exact ⟨h, rfl⟩

/-- The first entry of an id is found where the ledger finds the number. -/
theorem Shows.replaced (h : Shows w a) (hr : key r = idOf R n) (hmem : key r ∈ w.state.map key) :
    ∃ state, Notifier.replaced r w.state = .ok state ∧ (∀ r' ∈ state, r' = r ∨ r' ∈ w.state) ∧ state.map view =
      match a.state.findIdx? fun e => e.1 = n.repr with
      | some j => a.state.set j (n.repr, audit r)
      | none => a.state := by
  have hfind : (a.state.findIdx? fun e => e.1 = n.repr) = w.state.findIdx? fun r' => key r' = key r := by
    rw [← h.state, List.findIdx?_map]
    refine Keyed.findIdx?_congr fun r' hr' => ?_
    obtain ⟨m, -, hm⟩ := h.keyed r' hr'
    simp only [Function.comp_apply, view, hr, ← idOf_eq_iff (R := R) hm]
  rw [hfind]
  unfold Notifier.replaced
  cases hi : w.state.findIdx? fun r' => key r' = key r with
  | none => exact absurd hmem (Keyed.findIdx?_eq_none.1 hi)
  | some j =>
    refine ⟨_, rfl, fun r' hr' => (List.mem_or_eq_of_mem_set hr').symm, ?_⟩
    rw [List.map_set, h.state, view_eq hr]

theorem Shows.edit {i : Nat} {changes : DynMap} {accepted : Bool} (h : Shows w a) (hi : w.state[i]? = some r)
    (hacc : Forms.accepts (fields : List (Forms.FormField R)) (editForm r changes) = accepted) :
    Shows (saveAndValidate (some r) (some user) (editForm r changes) now o w).1 (a.edit i accepted user now o).1 ∧
      (saveAndValidate (some r) (some user) (editForm r changes) now o w).2.isOk = (a.edit i accepted user now o).2 := by
  obtain ⟨n, hn, hk⟩ := h.keyed r (List.mem_of_getElem? hi)
  have ha : a.state[i]? = some (n.repr, audit r) := by rw [← h.state, List.getElem?_map, hi, Option.map_some, view_eq hk]
  rw [saveAndValidate_some, hacc]
  unfold Ledger.edit
  simp only [ha]
  cases accepted with
  | false => exact ⟨h, rfl⟩
  | true =>
    obtain ⟨r', hr', hx⟩ := @edited_ok R _ r changes user now hacc
    have hr' : edited r (some user) now (editForm r changes) = .ok r' := hr'
    obtain ⟨hk', -, -⟩ := edited_keeps hr'
    have hmem : key r' ∈ w.state.map key := hk' ▸ List.mem_map_of_mem (List.mem_of_getElem? hi)
    obtain ⟨hsaved, hkept, hdocs⟩ := h.write (o := o) hn (hk'.trans hk)
    obtain ⟨state, hs, hstate, hview⟩ := h.replaced (hk'.trans hk) hmem
    rw [hx] at hdocs hview
    simp only [if_true, hr', submitEdit, Notifier.save, hs]
    refine ⟨⟨hsaved, hkept, fun r₀ hr₀ => ?_, hdocs, hview⟩, rfl⟩
    rcases hstate r₀ hr₀ with rfl | hr₀
    · exact ⟨n, hn, hk'.trans hk⟩
    · exact h.keyed r₀ hr₀

theorem Shows.remove {i : Nat} (h : Shows w a) (hi : w.state[i]? = some r) :
    Shows (Notifier.remove (key r) o w).1 (a.remove i o).1 ∧ (Notifier.remove (key r) o w).2.isOk = (a.remove i o).2 := by
  obtain ⟨n, hn, hk⟩ := h.keyed r (List.mem_of_getElem? hi)
  have ha : a.state[i]? = some (n.repr, audit r) := by rw [← h.state, List.getElem?_map, hi, Option.map_some, view_eq hk]
  unfold Ledger.remove Notifier.remove Notifier.delete
  simp only [ha]
  refine ⟨⟨?_, ?_, fun r₀ hr₀ => h.keyed r₀ (List.mem_filter.1 hr₀).1, ?_, ?_⟩, rfl⟩
  · split
    · exact h.saved.erase
    · exact h.saved
  · split
    · exact h.kept.erase
    · exact h.kept
  · split
    · refine SortedMap.map_entries_erase h.docs fun e he => ?_
      obtain ⟨m, -, hm⟩ := h.kept.keyed e he
      rw [hk]
      exact idOf_eq_iff hm
    · exact h.docs
  · rw [← h.state, List.filter_map]
    refine congrArg (List.map view) (List.filter_congr fun r₀ hr₀ => ?_)
    obtain ⟨m, -, hm⟩ := h.keyed r₀ hr₀
    simp only [Function.comp_apply, view, ne_eq, hk, ← idOf_eq_iff (R := R) hm]

end Ledger
