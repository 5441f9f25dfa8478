/-
The client's documents (`model/mutable_document.h`, `model/object_value.cc`)
and the fields found in them by a path. Two documents with equal values have
equal fields wherever a path does not lead into a timestamp that the server
has yet to set (`Document.Same.field`): of such a timestamp `Equals` looks at
nothing but when it was written.
-/
import Sdapk.Value

namespace Client

/-! ## Keys -/

/-- A document's path: collections and documents take turns. -/
structure DocumentKey where
  path : List String
  valid : path.length % 2 = 0
  deriving DecidableEq

/-- `util::CompareContainer` of the segments. -/
def DocumentKey.compareTo (key other : DocumentKey) : Ordering := List.compareLex compare key.path other.path

instance : Std.TransCmp DocumentKey.compareTo where
  eq_swap {a b} := by
    show List.compareLex compare a.path b.path = (List.compareLex compare b.path a.path).swap
    exact Std.OrientedCmp.eq_swap
  isLE_trans {a b c} (h : (List.compareLex compare a.path b.path).isLE) (h' : (List.compareLex compare b.path c.path).isLE) := by
    show (List.compareLex compare a.path c.path).isLE
    exact Std.TransCmp.isLE_trans h h'

instance : Std.LawfulEqCmp DocumentKey.compareTo where
  eq_of_compare {a b} h := by
    change List.compareLex compare a.path b.path = .eq at h
    have : a.path = b.path := Std.LawfulEqCmp.eq_of_compare h
    cases a
    cases b
    simpa using this

theorem DocumentKey.compareTo_swap (a b : DocumentKey) : a.compareTo b = (b.compareTo a).swap := Std.OrientedCmp.eq_swap

/-- The key of a document of a collection that is in no document. -/
def documentKey (collection name : String) : DocumentKey := ⟨[collection, name], Nat.mod_self 2⟩

/-- `FromName`, which fails where the name is no document's. -/
def DocumentKey.fromName (name : String) : Option DocumentKey :=
  if (name.splitOn "//").length = 1 then
    match segments name with
    | projects :: _ :: databases :: _ :: documents :: path =>
      if h : path.length % 2 = 0 then
        if projects = "projects" ∧ databases = "databases" ∧ documents = "documents" then some ⟨path, h⟩ else none
      else none
    | _ => none
  else none

/-! ## Documents -/

inductive DocumentType where
  | invalid
  | foundDocument
  | noDocument
  | unknownDocument
  deriving DecidableEq

/-- Whether writes are applied to a document that the server has not sent back. -/
inductive DocumentState where
  | hasLocalMutations
  | hasCommittedMutations
  | synced
  deriving DecidableEq

/-- When the server had a document as it is: the seconds and nanoseconds of a timestamp. -/
abbrev SnapshotVersion := Int × Int

/-- A name between double underscores, which no field of a user's can have. -/
def isReserved (name : String) : Bool := "__".toList.isPrefixOf name.toList && "__".toList.isSuffixOf name.toList

mutual

/-- Timestamps that the server has yet to set are those the client encodes, in maps within maps too. -/
def Value.wellFormed : Value → Bool
  | .map fields => (!isServerTimestamp fields || fields.all fun f => isReserved f.1) && fieldsWellFormed fields
  | _ => true

def fieldsWellFormed : List (String × Value) → Bool
  | [] => true
  | (_, v) :: fields => v.wellFormed && fieldsWellFormed fields

end

/-- A document as the local store has it. Its own fields are no such timestamp's. -/
structure Document where
  key : DocumentKey
  documentType : DocumentType
  version : SnapshotVersion
  documentState : DocumentState
  fields : List (String × Value)
  unreserved : isServerTimestamp fields = false
  wellFormed : fieldsWellFormed fields = true

namespace Document

/-- `MutableDocument::InvalidDocument`. -/
def invalidDocument (key : DocumentKey) : Document := ⟨key, .invalid, (0, 0), .synced, [], rfl, rfl⟩

/-- `MutableDocument::NoDocument`: the server has none by this key. -/
def noDocument (key : DocumentKey) (version : SnapshotVersion) : Document := ⟨key, .noDocument, version, .synced, [], rfl, rfl⟩

def isFoundDocument (d : Document) : Bool := d.documentType = .foundDocument

def hasLocalMutations (d : Document) : Bool := d.documentState = .hasLocalMutations

def hasCommittedMutations (d : Document) : Bool := d.documentState = .hasCommittedMutations

def value (d : Document) : Value := .map d.fields

/-- `MutableDocument`'s `==`. -/
instance : BEq Document where
  beq d d' := d.key = d'.key && d.documentType = d'.documentType && d.version = d'.version &&
    d.documentState = d'.documentState && d.value == d'.value

end Document

/-! ## Fields -/

/-- `FindEntry`. -/
def findEntry (value : Value) (segment : String) : Option Value :=
  match value with
  | .map fields => fields.lookup segment
  | _ => none

abbrev FieldPath := List String

/-- The field that stands for the key. -/
def kDocumentKeyPath : String := "__name__"

def isKeyFieldPath (field : FieldPath) : Bool := field = [kDocumentKeyPath]

/-- The value at a path in a value, `ObjectValue::Get`. -/
def Value.get (value : Value) (path : FieldPath) : Option Value :=
  path.foldl (fun v segment => v.bind fun v => findEntry v segment) (some value)

def Document.field (d : Document) (path : FieldPath) : Option Value := d.value.get path

/-- A path that leads into no timestamp the server has yet to set. -/
def FieldPath.Plain (path : FieldPath) : Prop := ∀ segment ∈ path.tail, isReserved segment = false

@[simp] theorem Value.get_nil (v : Value) : v.get [] = some v := rfl

theorem foldl_findEntry_none (path : FieldPath) :
    path.foldl (fun v segment => v.bind fun v => findEntry v segment) none = none := by
  induction path with
  | nil => rfl
  | cons segment path ih => exact ih

theorem Value.get_cons (v : Value) (segment : String) (path : FieldPath) :
    v.get (segment :: path) = (findEntry v segment).bind fun v => v.get path := by
  rw [get, List.foldl_cons, Option.bind_some]
  cases findEntry v segment with
  | none => exact foldl_findEntry_none path
  | some w => rfl

theorem field_single (d : Document) (name : String) : d.field [name] = d.fields.lookup name := rfl

/-! ## Equal values -/

/-- One value, as far as `Equals` tells. -/
def Value.Same (v w : Value) : Prop := v = w ∨ v.equals w

theorem lookup_of_objectEquals {a b : List (String × Value)} (h : objectEquals a b = true) (name : String) :
    (a.lookup name).Rel Value.Same (b.lookup name) := by
  induction a generalizing b with
  | nil =>
    cases b with
    | nil => exact .none
    | cons f b => cases h
  | cons e a ih =>
    cases b with
    | nil => cases h
    | cons f b =>
      simp only [objectEquals, Bool.and_eq_true, decide_eq_true_eq] at h
      obtain ⟨⟨hk, hv⟩, h⟩ := h
      rw [List.lookup_cons, List.lookup_cons, hk]
      cases name == f.1 with
      | true => exact .some (.inr hv)
      | false => exact ih h

/-- Every field is the same as itself. -/
theorem rel_refl (o : Option Value) : o.Rel Value.Same o := by
  cases o with
  | none => exact .none
  | some v => exact .some (.inl rfl)

theorem wellFormed_of_lookup {fields : List (String × Value)} (h : fieldsWellFormed fields = true) {name : String} {v : Value}
    (hv : fields.lookup name = some v) : v.wellFormed = true := by
  induction fields with
  | nil => cases hv
  | cons f fields ih =>
    simp only [fieldsWellFormed, Bool.and_eq_true] at h
    rw [List.lookup_cons] at hv
    split at hv
    · exact Option.some.inj hv ▸ h.1
    · exact ih h.2 hv

theorem wellFormed_of_findEntry {v w : Value} (h : v.wellFormed = true) {segment : String} (hw : findEntry v segment = some w) :
    w.wellFormed = true := by
  cases v with
  | map fields =>
    simp only [Value.wellFormed, Bool.and_eq_true] at h
    exact wellFormed_of_lookup h.2 hw
  | _ => cases hw

/-- A name that is not reserved is not to be found in a timestamp the server has yet to set. -/
theorem lookup_isServerTimestamp {fields : List (String × Value)} (h : (Value.map fields).wellFormed = true)
    (hs : isServerTimestamp fields = true) {name : String} (hn : isReserved name = false) : fields.lookup name = none := by
  simp only [Value.wellFormed, hs, Bool.not_true, Bool.false_or, Bool.and_eq_true, List.all_eq_true] at h
  refine List.lookup_eq_none_iff.2 fun f hf => ?_
  have hne : name ≠ f.1 := fun heq => by
    rw [heq, h.1 f hf] at hn
    cases hn
  simpa using hne

/-- **Equal values have equal entries.** -/
theorem Value.Same.findEntry {v w : Value} (hv : v.wellFormed = true) (hw : w.wellFormed = true) (h : v.Same w) {segment : String}
    (hs : isReserved segment = false) : (findEntry v segment).Rel Value.Same (findEntry w segment) := by
  rcases h with rfl | h
  · exact rel_refl _
  · cases v <;> cases w
    case map.map a b =>
      change (a.lookup segment).Rel Value.Same (b.lookup segment)
      unfold Value.equals at h
      simp only [Bool.and_eq_true, decide_eq_true_eq] at h
      obtain ⟨htype, h⟩ := h
      split at h
      · next ha =>
        have hb : isServerTimestamp b = true := getTypeOrder_map_eq.1 (htype.symm.trans (getTypeOrder_map_eq.2 ha))
        rw [lookup_isServerTimestamp hv ha hs, lookup_isServerTimestamp hw hb hs]
        exact .none
      · exact lookup_of_objectEquals h segment
    all_goals first | exact .none | simp [Value.equals] at h

theorem Value.Same.get {path : FieldPath} (hpath : ∀ segment ∈ path, isReserved segment = false) :
    ∀ {v w : Value}, v.wellFormed = true → w.wellFormed = true → v.Same w → (v.get path).Rel Value.Same (w.get path) := by
  induction path with
  | nil => exact fun _ _ h => .some h
  | cons segment path ih =>
    intro v w hv hw h
    have hstep := h.findEntry hv hw (hpath segment List.mem_cons_self)
    rw [get_cons, get_cons]
    cases hve : Client.findEntry v segment <;> cases hwe : Client.findEntry w segment <;> rw [hve, hwe] at hstep <;> cases hstep
    · exact .none
    · next h =>
      exact ih (fun s hs => hpath s (List.mem_cons_of_mem _ hs)) (wellFormed_of_findEntry hv hve) (wellFormed_of_findEntry hw hwe) h

/-! ## Equal documents -/

/-- One document, with the same value as far as `==` tells. -/
def Document.Same (d d' : Document) : Prop := d = d' ∨ d.key = d'.key ∧ d.value.equals d'.value

namespace Document.Same

theorem key {d d' : Document} (h : d.Same d') : d.key = d'.key := by
  rcases h with rfl | ⟨h, -⟩
  · rfl
  · exact h

theorem lookup {d d' : Document} (h : d.Same d') (name : String) :
    (d.fields.lookup name).Rel Value.Same (d'.fields.lookup name) := by
  rcases h with rfl | ⟨-, h⟩
  · exact rel_refl _
  · have heq : objectEquals d.fields d'.fields = true := by
      unfold Document.value Value.equals at h
      simp only [d.unreserved, Bool.false_eq_true, if_false, Bool.and_eq_true] at h
      exact h.2
    exact lookup_of_objectEquals heq name

/-- **Equal documents have equal fields.** -/
theorem field {d d' : Document} (h : d.Same d') {path : FieldPath} (hpath : path.Plain) :
    (d.field path).Rel Value.Same (d'.field path) := by
  cases path with
  | nil =>
    rcases h with rfl | ⟨-, h⟩
    · exact rel_refl _
    · exact .some (.inr h)
  | cons name path =>
    have hstep := h.lookup name
    rw [Document.field, Document.field, Value.get_cons, Value.get_cons]
    change ((d.fields.lookup name).bind _).Rel _ ((d'.fields.lookup name).bind _)
    cases hv : d.fields.lookup name <;> cases hw : d'.fields.lookup name <;> rw [hv, hw] at hstep <;> cases hstep
    · exact .none
    · next h => exact Value.Same.get hpath (wellFormed_of_lookup d.wellFormed hv) (wellFormed_of_lookup d'.wellFormed hw) h

theorem refl (d : Document) : d.Same d := .inl rfl

theorem symm {a b : Document} (h : a.Same b) : b.Same a := by
  rcases h with rfl | ⟨hkey, h⟩
  · exact refl a
  · exact .inr ⟨hkey.symm, equals_symm h⟩

theorem trans {a b c : Document} (h : a.Same b) (h' : b.Same c) : a.Same c := by
  rcases h with rfl | ⟨hkey, h⟩
  · exact h'
  · rcases h' with rfl | ⟨hkey', h'⟩
    · exact .inr ⟨hkey, h⟩
    · exact .inr ⟨hkey.trans hkey', equals_trans h h'⟩

end Document.Same

end Client
