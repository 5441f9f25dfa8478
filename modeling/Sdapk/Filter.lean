/-
What a query asks of a document besides its path (`core/field_filter.cc` and
the filters made of it, `core/composite_filter.cc`, `core/order_by.cc`,
`core/bound.cc`): filters, the fields it is put in order by, and cursors, which
stand somewhere in that order.
-/
import Sdapk.Document

namespace Client

/-! ## Filters on a field -/

/-- The operators that compare; each of the others has a class of its own. -/
inductive Comparison where
  | lessThan
  | lessThanOrEqual
  | equal
  | notEqual
  | greaterThan
  | greaterThanOrEqual
  deriving DecidableEq

def Comparison.matchesComparison : Comparison → Ordering → Bool
  | lessThan, comparison => comparison = .lt
  | lessThanOrEqual, comparison => comparison = .lt || comparison = .eq
  | equal, comparison => comparison = .eq
  | notEqual, comparison => comparison ≠ .eq
  | greaterThan, comparison => comparison = .gt
  | greaterThanOrEqual, comparison => comparison = .gt || comparison = .eq

/-- A filter as `FieldFilter::Create` makes it: those on the key have their keys parsed already. -/
inductive FieldFilter where
  | fieldFilter (field : FieldPath) (op : Comparison) (value : Value)
  | keyFieldFilter (op : Comparison) (key : DocumentKey)
  | keyFieldInFilter (keys : List DocumentKey)
  | keyFieldNotInFilter (keys : List DocumentKey)
  | arrayContainsFilter (field : FieldPath) (value : Value)
  | inFilter (field : FieldPath) (values : List Value)
  | arrayContainsAnyFilter (field : FieldPath) (values : List Value)
  | notInFilter (field : FieldPath) (values : List Value)

/-- `model::Contains`. -/
def contains (haystack : List Value) (needle : Value) : Bool := haystack.any fun v => v.equals needle

namespace FieldFilter

def field : FieldFilter → FieldPath
  | fieldFilter field _ _ | arrayContainsFilter field _ | inFilter field _ | arrayContainsAnyFilter field _ | notInFilter field _ => field
  | keyFieldFilter _ _ | keyFieldInFilter _ | keyFieldNotInFilter _ => [kDocumentKeyPath]

def isInequality : FieldFilter → Bool
  | fieldFilter _ op _ | keyFieldFilter op _ => op ≠ .equal
  | notInFilter _ _ | keyFieldNotInFilter _ => true
  | _ => false

def matchesDocument (doc : Document) : FieldFilter → Bool
  | fieldFilter field op value =>
    match doc.field field with
    | none => false
    | some lhs =>
      -- types do not have to match for `!=`
      if op = .notEqual then op.matchesComparison (lhs.compare value)
      else getTypeOrder lhs = getTypeOrder value && op.matchesComparison (lhs.compare value)
  | keyFieldFilter op key => op.matchesComparison (doc.key.compareTo key)
  | keyFieldInFilter keys => doc.key ∈ keys
  | keyFieldNotInFilter keys => doc.key ∉ keys
  | arrayContainsFilter field value =>
    match doc.field field with
    | some (.array contents) => contains contents value
    | _ => false
  | inFilter field values =>
    match doc.field field with
    | none => false
    | some lhs => contains values lhs
  | arrayContainsAnyFilter field values =>
    match doc.field field with
    | some (.array contents) => contents.any fun v => contains values v
    | _ => false
  | notInFilter field values =>
    if contains values .null then false
    else
      match doc.field field with
      | none => false
      | some lhs => !contains values lhs

end FieldFilter

/-! ## Filters -/

inductive CompositeOperator where
  | or
  | and

inductive Filter where
  | field (filter : FieldFilter)
  | composite (op : CompositeOperator) (filters : List Filter)

mutual

def Filter.matchesDocument (doc : Document) : Filter → Bool
  | .field filter => filter.matchesDocument doc
  | .composite .and filters => allMatch doc filters
  | .composite .or filters => anyMatches doc filters

def allMatch (doc : Document) : List Filter → Bool
  | [] => true
  | filter :: filters => filter.matchesDocument doc && allMatch doc filters

def anyMatches (doc : Document) : List Filter → Bool
  | [] => false
  | filter :: filters => filter.matchesDocument doc || anyMatches doc filters

end

mutual

def Filter.getFlattenedFilters : Filter → List FieldFilter
  | .field filter => [filter]
  | .composite _ filters => flattened filters

def flattened : List Filter → List FieldFilter
  | [] => []
  | filter :: filters => filter.getFlattenedFilters ++ flattened filters

end

def Filter.getFirstInequalityField (filter : Filter) : Option FieldPath :=
  (filter.getFlattenedFilters.find? FieldFilter.isInequality).map FieldFilter.field

def inequalityFilterField (filters : List Filter) : Option FieldPath := filters.findSome? Filter.getFirstInequalityField

/-! ## Orders -/

inductive Direction where
  | ascending
  | descending
  deriving DecidableEq

def Direction.applyTo : Direction → Ordering → Ordering
  | .ascending, result => result
  | .descending, result => result.swap

structure OrderBy where
  field : FieldPath
  direction : Direction

/-- The comparison of two fields that are there; where one is not the source stops (`AssertBothOptionalsHaveValues`),
and no two documents of a view come there (`Stands.isSome_field`). -/
def compareFields : Option Value → Option Value → Ordering
  | some v, some w => v.compare w
  | none, some _ => .lt
  | some _, none => .gt
  | none, none => .eq

def OrderBy.compare (o : OrderBy) (lhs rhs : Document) : Ordering :=
  o.direction.applyTo
    (if isKeyFieldPath o.field then lhs.key.compareTo rhs.key else compareFields (lhs.field o.field) (rhs.field o.field))

/-- `Query::order_bys`: the field of an inequality if no order is asked for; else the orders asked for, of which the first is
by that field; and the key's after them, in the direction of the last. -/
def orderBys (filters : List Filter) (explicitOrderBys : List OrderBy) : List OrderBy :=
  match inequalityFilterField filters, explicitOrderBys with
  | some inequalityField, [] =>
    if isKeyFieldPath inequalityField then [⟨[kDocumentKeyPath], .ascending⟩]
    else [⟨inequalityField, .ascending⟩, ⟨[kDocumentKeyPath], .ascending⟩]
  | _, _ =>
    if explicitOrderBys.any fun o => isKeyFieldPath o.field then explicitOrderBys
    else
      let lastDirection := match explicitOrderBys.getLast? with
        | none => .ascending
        | some o => o.direction
      explicitOrderBys ++ [⟨[kDocumentKeyPath], lastDirection⟩]

/-! ## Cursors -/

structure Bound where
  position : List Value
  inclusive : Bool

/-- The key that a value refers to. -/
def referredKey : Value → Option DocumentKey
  | .reference name => DocumentKey.fromName name
  | _ => none

namespace Bound

/-- One value of a cursor against a document's. -/
def compareComponent (document : Document) (o : OrderBy) (fieldValue : Value) : Option Ordering :=
  if isKeyFieldPath o.field then (referredKey fieldValue).map fun key => o.direction.applyTo (key.compareTo document.key)
  else (document.field o.field).map fun docValue => o.direction.applyTo (fieldValue.compare docValue)

/-- One after another, until two differ. -/
def comparePosition (document : Document) : List OrderBy → List Value → Option Ordering
  | o :: orderBy, v :: position =>
    match compareComponent document o v with
    | none => none
    | some .eq => comparePosition document orderBy position
    | some comparison => some comparison
  | _, _ => some .eq

/-- Where a cursor stands to a document; the source stops where it has more values than there are orders, where one of them is
to be a document's name and is none, and where the document lacks a field. -/
def compareToDocument (b : Bound) (orderBy : List OrderBy) (document : Document) : Option Ordering :=
  if b.position.length ≤ orderBy.length then comparePosition document orderBy b.position else none

def sortsBeforeDocument (b : Bound) (orderBy : List OrderBy) (document : Document) : Option Bool :=
  (b.compareToDocument orderBy document).map fun comparison =>
    if b.inclusive then comparison = .lt || comparison = .eq else comparison = .lt

def sortsAfterDocument (b : Bound) (orderBy : List OrderBy) (document : Document) : Option Bool :=
  (b.compareToDocument orderBy document).map fun comparison =>
    if b.inclusive then comparison = .gt || comparison = .eq else comparison = .gt

/-- A cursor has a value for some of the first orders, and for the key's a name. -/
def Fits (b : Bound) (orderBy : List OrderBy) : Prop :=
  b.position.length ≤ orderBy.length ∧
    ∀ p ∈ orderBy.zip b.position, isKeyFieldPath p.1.field = true → (referredKey p.2).isSome

theorem isSome_comparePosition {document : Document} {orderBy : List OrderBy} {position : List Value}
    (hkeys : ∀ p ∈ orderBy.zip position, isKeyFieldPath p.1.field = true → (referredKey p.2).isSome)
    (hfields : ∀ o ∈ orderBy, isKeyFieldPath o.field = true ∨ (document.field o.field).isSome) :
    (comparePosition document orderBy position).isSome := by
  induction orderBy generalizing position with
  | nil => rfl
  | cons o orderBy ih =>
    cases position with
    | nil => rfl
    | cons v position =>
      have hrest : (comparePosition document orderBy position).isSome :=
        ih (fun p hp => hkeys p (List.mem_cons_of_mem _ hp)) fun o ho => hfields o (List.mem_cons_of_mem _ ho)
      have hfirst : (compareComponent document o v).isSome := by
        unfold compareComponent
        split
        · next hkey => simpa using hkeys (o, v) List.mem_cons_self hkey
        · next hkey => simpa using (hfields o List.mem_cons_self).resolve_left hkey
      unfold comparePosition
      split
      · next hnone =>
        rw [hnone] at hfirst
        cases hfirst
      · exact hrest
      · rfl

/-- **No assertion of a cursor fails** on a document that has the fields of the order. -/
theorem Fits.isSome_compareToDocument {b : Bound} {orderBy : List OrderBy} (h : b.Fits orderBy) {document : Document}
    (hfields : ∀ o ∈ orderBy, isKeyFieldPath o.field = true ∨ (document.field o.field).isSome) :
    (b.compareToDocument orderBy document).isSome := by
  rw [compareToDocument, if_pos h.1]
  exact isSome_comparePosition h.2 hfields

end Bound

end Client
