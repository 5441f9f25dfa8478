/-
The client's queries (`core/query.cc`): which documents a query matches and the
order it puts them in. The order always ends with the key, so that of two
documents with different keys one is before the other.
-/
import Sdapk.Filter

namespace Client

inductive LimitType where
  | none
  | first
  | last
  deriving DecidableEq

/-- `Target::kNoLimit`. -/
def kNoLimit : Nat := 2 ^ 31 - 1

/-- A query, as it can be built: `AddingFilter` and `AddingOrderBy` see to it that the first order is by the field of an
inequality, and a cursor is made for the orders. -/
structure Query where
  path : List String
  collectionGroup : Option String := none
  filters : List Filter := []
  explicitOrderBys : List OrderBy
  limitType : LimitType := .none
  limit : Nat := kNoLimit
  startAt : Option Bound := none
  endAt : Option Bound := none
  inequality_first : ∀ field ∈ inequalityFilterField filters, ∀ o ∈ explicitOrderBys.head?, o.field = field := by nofun
  startAt_fits : ∀ b ∈ startAt, b.Fits (orderBys filters explicitOrderBys) := by nofun
  endAt_fits : ∀ b ∈ endAt, b.Fits (orderBys filters explicitOrderBys) := by nofun

namespace Query

def hasLimitToFirst (q : Query) : Bool := q.limitType = .first && q.limit ≠ kNoLimit

def hasLimitToLast (q : Query) : Bool := q.limitType = .last && q.limit ≠ kNoLimit

def orderBys (q : Query) : List OrderBy := Client.orderBys q.filters q.explicitOrderBys

def matchesPathAndCollectionGroup (q : Query) (doc : Document) : Bool :=
  let docPath := doc.key.path
  match q.collectionGroup with
  | some group =>
    (2 ≤ docPath.length && docPath[docPath.length - 2]? = some group) && q.path.isPrefixOf docPath
  | none =>
    if q.path.length % 2 = 0 then q.path = docPath
    else q.path.length + 1 = docPath.length && q.path.isPrefixOf docPath

def matchesFilters (q : Query) (doc : Document) : Bool := q.filters.all fun filter => filter.matchesDocument doc

def matchesOrderBy (q : Query) (doc : Document) : Bool :=
  q.orderBys.all fun o => isKeyFieldPath o.field || (doc.field o.field).isSome

/-- The document is between the cursors; where an assertion of theirs fails, nothing. -/
def matchesBounds (q : Query) (doc : Document) : Option Bool := do
  let afterStart ← q.startAt.elim (some true) fun b => b.sortsBeforeDocument q.orderBys doc
  let beforeEnd ← q.endAt.elim (some true) fun b => b.sortsAfterDocument q.orderBys doc
  some (afterStart && beforeEnd)

/-- A document that has the fields of the order can be compared with the cursors. -/
theorem isSome_matchesBounds {q : Query} {doc : Document} (h : q.matchesOrderBy doc) : (q.matchesBounds doc).isSome := by
  have hfields : ∀ o ∈ q.orderBys, isKeyFieldPath o.field = true ∨ (doc.field o.field).isSome := by
    simpa [matchesOrderBy] using h
  have hstart : (q.startAt.elim (some true) fun b => b.sortsBeforeDocument q.orderBys doc).isSome := by
    cases hb : q.startAt with
    | none => rfl
    | some b =>
      rw [Option.elim_some, Bound.sortsBeforeDocument, Option.isSome_map]
      exact (q.startAt_fits b hb).isSome_compareToDocument hfields
  have hend : (q.endAt.elim (some true) fun b => b.sortsAfterDocument q.orderBys doc).isSome := by
    cases hb : q.endAt with
    | none => rfl
    | some b =>
      rw [Option.elim_some, Bound.sortsAfterDocument, Option.isSome_map]
      exact (q.endAt_fits b hb).isSome_compareToDocument hfields
  obtain ⟨afterStart, hs⟩ := Option.isSome_iff_exists.1 hstart
  obtain ⟨beforeEnd, he⟩ := Option.isSome_iff_exists.1 hend
  rw [matchesBounds, hs, he]
  rfl

def matchesDocument (q : Query) (doc : Document) : Bool :=
  doc.isFoundDocument && q.matchesPathAndCollectionGroup doc &&
    if h : q.matchesOrderBy doc then q.matchesFilters doc && (q.matchesBounds doc).get (isSome_matchesBounds h) else false

/-- The fields of the order, which a document that the query matches has. -/
theorem isSome_field {q : Query} {doc : Document} (h : q.matchesDocument doc) {o : OrderBy} (ho : o ∈ q.orderBys)
    (hkey : isKeyFieldPath o.field = false) : (doc.field o.field).isSome := by
  unfold matchesDocument at h
  simp only [Bool.and_eq_true] at h
  obtain ⟨-, h⟩ := h
  split at h
  · next horder =>
    have hall := List.all_eq_true.1 horder o ho
    rwa [hkey, Bool.false_or] at hall
  · cases h

/-- `Query::Comparator`: by the first order that tells the two apart. -/
def comparator (q : Query) (doc1 doc2 : Document) : Ordering :=
  q.orderBys.foldr (fun o rest => (o.compare doc1 doc2).then rest) .eq

end Query

/-! ## The order of a query -/

theorem compareFields_eq (v w : Option Value) :
    compareFields v w = compare (v.map Value.spelled) (w.map Value.spelled) := by
  cases v <;> cases w <;> first | rfl | exact Value.compare_eq _ _

theorem transCmp_key : Std.TransCmp fun a b : Document => a.key.compareTo b.key where
  eq_swap := DocumentKey.compareTo_swap ..
  isLE_trans h h' := Std.TransCmp.isLE_trans h h'

instance (o : OrderBy) : Std.TransCmp o.compare := by
  have h : Std.TransCmp fun lhs rhs : Document =>
      if isKeyFieldPath o.field then lhs.key.compareTo rhs.key
      else compareFields (lhs.field o.field) (rhs.field o.field) := by
    by_cases hk : isKeyFieldPath o.field = true
    · simp only [hk, if_true]
      exact transCmp_key
    · simp only [hk, compareFields_eq]
      exact inferInstanceAs (Std.TransCmp (compareOn fun d : Document => (d.field o.field).map Value.spelled))
  unfold OrderBy.compare
  cases o.direction with
  | ascending => exact h
  | descending =>
    have hswap := fun a b : Document => h.eq_swap (a := b) (b := a)
    simp only [Direction.applyTo, ← hswap]
    exact @Std.TransCmp.opposite _ _ h

theorem transCmp_foldr (orders : List OrderBy) :
    Std.TransCmp fun a b : Document => orders.foldr (fun o rest => (o.compare a b).then rest) .eq := by
  induction orders with
  | nil => exact { eq_swap := rfl, isLE_trans := fun _ _ => rfl }
  | cons o orders ih =>
    exact inferInstanceAs (Std.TransCmp (compareLex o.compare
      fun a b : Document => orders.foldr (fun o rest => (o.compare a b).then rest) .eq))

instance (q : Query) : Std.TransCmp q.comparator := transCmp_foldr q.orderBys

theorem Query.comparator_swap (q : Query) (a b : Document) : q.comparator a b = (q.comparator b a).swap := Std.OrientedCmp.eq_swap

theorem Query.comparator_self (q : Query) (a : Document) : q.comparator a a = .eq := Std.ReflCmp.compare_self

theorem comparator_eq_iff {q : Query} {a b : Document} :
    q.comparator a b = .eq ↔ ∀ o ∈ q.orderBys, o.compare a b = .eq := by
  unfold Query.comparator
  induction q.orderBys with
  | nil => simp
  | cons o orders ih => simp [ih]

/-- The assertion of `Query::Comparator` that there is one holds. -/
theorem exists_keyOrder (q : Query) : ∃ o ∈ q.orderBys, isKeyFieldPath o.field := by
  unfold Query.orderBys orderBys
  split
  · split
    · exact ⟨_, List.mem_cons_self, rfl⟩
    · exact ⟨_, List.mem_cons_of_mem _ List.mem_cons_self, rfl⟩
  · split
    · next h => simpa using h
    · exact ⟨_, List.mem_append_right _ List.mem_cons_self, rfl⟩

/-- Documents in the same place are one document. -/
theorem key_of_comparator_eq {q : Query} {a b : Document} (h : q.comparator a b = .eq) : a.key = b.key := by
  obtain ⟨o, ho, hkey⟩ := exists_keyOrder q
  have h := comparator_eq_iff.1 h o ho
  simp only [OrderBy.compare, hkey, if_true] at h
  cases hd : o.direction with
  | ascending =>
    rw [hd, Direction.applyTo] at h
    exact Std.LawfulEqCmp.eq_of_compare h
  | descending =>
    rw [hd, Direction.applyTo, ← DocumentKey.compareTo_swap] at h
    exact (Std.LawfulEqCmp.eq_of_compare h).symm

/-! ## Equal documents -/

/-- A query that is put in order by no field of a timestamp the server has yet to set. -/
def Query.Plain (q : Query) : Prop := ∀ o ∈ q.orderBys, o.field.Plain

theorem compareFields_of_rel {v w : Option Value} (h : v.Rel Value.Same w) : compareFields v w = .eq := by
  cases h with
  | none => rfl
  | some h =>
    rcases h with rfl | h
    · rw [compareFields_eq]
      exact Std.ReflOrd.compare_self
    · exact compare_of_equals h

/-- A query puts them in the same place. -/
theorem Document.Same.comparator {q : Query} (hq : q.Plain) {d d' : Document} (h : d.Same d') : q.comparator d d' = .eq := by
  refine comparator_eq_iff.2 fun o ho => ?_
  have : (if isKeyFieldPath o.field then d.key.compareTo d'.key else compareFields (d.field o.field) (d'.field o.field)) = .eq := by
    split
    · rw [h.key]
      exact Std.ReflCmp.compare_self
    · exact compareFields_of_rel (h.field (hq o ho))
  rw [OrderBy.compare, this]
  cases o.direction <;> rfl

end Client
