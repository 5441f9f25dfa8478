/-
Values of Dart's type `dynamic` and maps from text to them: the casts a typed
field performs on a map's value, and `{...m, 'k': v}`.
-/
import Sdapk.Dart.DateTime

namespace Dart

/-- What an operation throws: a failed cast, a text that is no number, an
index outside its list, an answer that did not come. -/
inductive Error
  | typeError
  | formatException
  | rangeError
  | firebaseException
  deriving DecidableEq

/-- What a sequence of two computations returns, the second returns on the first's value. -/
theorem bind_eq_ok {α β : Type} {b : β} {f : α → Except Error β} :
    ∀ {x : Except Error α}, (x >>= f) = .ok b ↔ ∃ a, x = .ok a ∧ f a = .ok b
  | .error _ => ⟨nofun, nofun⟩
  | .ok a => ⟨fun h => ⟨a, rfl, h⟩, fun ⟨_, ha, h⟩ => Except.ok.inj ha ▸ h⟩

theorem toOption_eq_some {α : Type} {a : α} : ∀ {x : Except Error α}, x.toOption = some a ↔ x = .ok a
  | .ok _ => ⟨fun h => congrArg Except.ok (Option.some.inj h), fun h => congrArg some (Except.ok.inj h)⟩
  | .error _ => ⟨nofun, nofun⟩

theorem pure_eq_ok {α : Type} {a b : α} : (pure a : Except Error α) = .ok b ↔ a = b := Except.ok.injEq a b ▸ Iff.rfl

/-- What a computation made of each value of a list comes to, where all of them return. -/
theorem mapM_eq_ok {α β : Type} {f : α → Except Error β} {as : List α} {bs : List β} :
    as.mapM f = .ok bs ↔ as.map f = bs.map .ok := by
  induction as generalizing bs with
  | nil => cases bs <;> simp [pure_eq_ok]
  | cons a as ih =>
    rw [List.mapM_cons, bind_eq_ok, List.map_cons]
    constructor
    · rintro ⟨b, hb, h⟩
      obtain ⟨bs', hbs, h⟩ := bind_eq_ok.1 h
      obtain rfl := pure_eq_ok.1 h
      rw [List.map_cons, hb, ih.1 hbs]
    · intro h
      cases bs with
      | nil => cases h
      | cons b bs =>
        rw [List.map_cons, List.cons.injEq] at h
        exact ⟨b, h.1, bind_eq_ok.2 ⟨bs, ih.2 h.2, rfl⟩⟩

/-- `v!`. -/
def nonNull {α : Type} : Option α → Except Error α
  | some a => .ok a
  | none => .error .typeError

theorem nonNull_eq_ok {α : Type} {a : α} : ∀ {o : Option α}, nonNull o = .ok a ↔ o = some a
  | none => ⟨nofun, nofun⟩
  | some _ => ⟨fun h => congrArg some (Except.ok.inj h), fun h => congrArg Except.ok (Option.some.inj h)⟩

/-- `s[i]`. -/
def charAt (s : String) (i : Nat) : Except Error String :=
  match s.toList[i]? with
  | some c => .ok (String.ofList [c])
  | none => .error .rangeError

theorem charAt_zero_ok {s : String} (h : s ≠ "") : ∃ c, charAt s 0 = .ok c := by
  cases hs : s.toList with
  | nil => exact absurd (String.toList_eq_nil_iff.1 hs) h
  | cons c cs => exact ⟨String.ofList [c], by simp only [charAt, hs, List.getElem?_cons_zero]⟩

/-- Firestore's `Timestamp`. -/
structure Timestamp where
  seconds : Int
  nanoseconds : Int
  deriving DecidableEq

/-- A `dynamic` value, of the types a form or a stored document holds. -/
inductive Dyn
  | null
  | str (s : String)
  | int (i : Int)
  | dateTime (d : DateTime)
  | timestamp (t : Timestamp)
  deriving DecidableEq

namespace Timestamp

/-- `t.toString()`. -/
def toString (t : Timestamp) : String :=
  "Timestamp(seconds=" ++ ToString.toString t.seconds ++ ", nanoseconds=" ++ ToString.toString t.nanoseconds ++ ")"

/-- `Timestamp.fromDate(d)`. -/
def fromDate (d : DateTime) : Timestamp :=
  ⟨d.microsecondsSinceEpoch / 1000000, d.microsecondsSinceEpoch % 1000000 * 1000⟩

/-- The instant, in nanoseconds since the epoch. -/
def nanosecondsSinceEpoch (t : Timestamp) : Int := t.seconds * 1000000000 + t.nanoseconds

@[simp] theorem nanosecondsSinceEpoch_fromDate (d : DateTime) :
    (fromDate d).nanosecondsSinceEpoch = d.microsecondsSinceEpoch * 1000 := by
  simp only [nanosecondsSinceEpoch, fromDate]
  omega

theorem toString_head (t : Timestamp) : ∃ cs, t.toString.toList = 'T' :: cs := by
  have h : "Timestamp(seconds=".toList = 'T' :: "imestamp(seconds=".toList := by simp
  exact head_append (head_append (head_append (head_append ⟨_, h⟩)))

end Timestamp

namespace Dyn

/-- `v.toString()`. -/
def toString : Dyn → String
  | null => "null"
  | str s => s
  | int i => ToString.toString i
  | dateTime d => d.toString
  | timestamp t => t.toString

/-! ## Casts -/

/-- A cast to `String`. -/
def asString : Dyn → Except Error String
  | str s => .ok s
  | _ => .error .typeError

/-- A cast to `String?`. -/
def asStringOrNull : Dyn → Except Error (Option String)
  | null => .ok none
  | str s => .ok (some s)
  | _ => .error .typeError

/-- A cast to `DateTime?`. -/
def asDateTimeOrNull : Dyn → Except Error (Option DateTime)
  | null => .ok none
  | dateTime d => .ok (some d)
  | _ => .error .typeError

/-- `v ?? ''`. -/
def orEmpty : Dyn → Dyn
  | null => str ""
  | v => v

/-- A `String?` as a dynamic value. -/
def ofString : Option String → Dyn
  | none => null
  | some s => str s

/-- A `DateTime?` as a dynamic value. -/
def ofDateTime : Option DateTime → Dyn
  | none => null
  | some d => dateTime d

@[simp] theorem ofString_none : ofString none = null := rfl
@[simp] theorem ofString_some (s : String) : ofString (some s) = str s := rfl
@[simp] theorem ofDateTime_none : ofDateTime none = null := rfl
@[simp] theorem ofDateTime_some (d : DateTime) : ofDateTime (some d) = dateTime d := rfl
@[simp] theorem asString_eq_ok {v : Dyn} {s : String} : v.asString = .ok s ↔ v = str s := by
  cases v <;> simp [asString]
@[simp] theorem asStringOrNull_eq_ok {v : Dyn} {o : Option String} : v.asStringOrNull = .ok o ↔ v = ofString o := by
  cases v <;> cases o <;> simp [asStringOrNull, ofString]
@[simp] theorem asDateTimeOrNull_eq_ok {v : Dyn} {o : Option DateTime} : v.asDateTimeOrNull = .ok o ↔ v = ofDateTime o := by
  cases v <;> cases o <;> simp [asDateTimeOrNull, ofDateTime]
@[simp] theorem asString_str (s : String) : (str s).asString = .ok s := rfl
@[simp] theorem asStringOrNull_ofString (o : Option String) : (ofString o).asStringOrNull = .ok o := by cases o <;> rfl
@[simp] theorem asDateTimeOrNull_ofDateTime (o : Option DateTime) : (ofDateTime o).asDateTimeOrNull = .ok o := by
  cases o <;> rfl
@[simp] theorem orEmpty_ofString (o : Option String) : (ofString o).orEmpty = str (o.getD "") := by cases o <;> rfl
@[simp] theorem orEmpty_str (s : String) : (str s).orEmpty = str s := rfl
@[simp] theorem orEmpty_null : null.orEmpty = str "" := rfl
@[simp] theorem toString_null : null.toString = "null" := rfl
@[simp] theorem toString_str (s : String) : (str s).toString = s := rfl

theorem ofString_injective {o o' : Option String} (h : ofString o = ofString o') : o = o' := by
  cases o <;> cases o' <;> simp_all [ofString]

/-! ## Dates and numbers read from text -/

/-- `DateTime.tryParse(v.toString())`. -/
def tryParseDate (v : Dyn) : Option DateTime := DateTime.tryParse v.toString

/-- `int.parse(v.toString())`, of a number below `2 ^ 63` where it is one: Dart throws from there on. -/
def parseInt (v : Dyn) : Except Error Int :=
  match tryParseInt v.toString with
  | some i => .ok i
  | none => .error .formatException

/-- A `DateTime?` survives its text: the text of `null` is no date. -/
@[simp] theorem tryParseDate_ofDateTime (o : Option DateTime) : (ofDateTime o).tryParseDate = o := by
  cases o with
  | none =>
    have hn : "null".toList = 'n' :: ['u', 'l', 'l'] := by decide
    exact DateTime.tryParse_of_head hn (by decide) (by decide) (by decide)
  | some d => exact DateTime.tryParse_toString d

@[simp] theorem tryParseDate_null : null.tryParseDate = none := tryParseDate_ofDateTime none

/-- **A `Timestamp` is lost**: its text is no date. -/
@[simp] theorem tryParseDate_timestamp (t : Timestamp) : (timestamp t).tryParseDate = none := by
  obtain ⟨cs, hcs⟩ := t.toString_head
  exact DateTime.tryParse_of_head hcs (by decide) (by decide) (by decide)

@[simp] theorem parseInt_int (i : Int) : (int i).parseInt = .ok i := by
  simp [parseInt, toString]

@[simp] theorem parseInt_repr (i : Int) : (str i.repr).parseInt = .ok i := by
  simp [parseInt]

end Dyn

/-! ## Maps -/

/-- `Map<String, dynamic>`, in insertion order. -/
abbrev DynMap := List (String × Dyn)

namespace DynMap

/-- `m[k]`: `null` where there is no entry. -/
def get (m : DynMap) (k : String) : Dyn := (m.lookup k).getD .null

/-- `{...m, k: v}`. -/
def insert (k : String) (v : Dyn) : DynMap → DynMap
  | [] => [(k, v)]
  | (k', v') :: m => if k' = k then (k, v) :: m else (k', v') :: insert k v m

@[simp] theorem get_nil {k : String} : DynMap.get [] k = .null := rfl

theorem get_cons {m : DynMap} {k k' : String} {v : Dyn} :
    DynMap.get ((k', v) :: m) k = if k = k' then v else DynMap.get m k := by
  unfold get
  rw [List.lookup_cons]
  by_cases h : k = k'
  · simp [h]
  · rw [beq_false_of_ne h, if_neg h]

theorem get_insert {k k' : String} {v : Dyn} : ∀ {m : DynMap},
    get (insert k v m) k' = if k' = k then v else get m k'
  | [] => by simp [insert, get_cons]
  | (k₁, v₁) :: m => by
    simp only [insert]
    by_cases h₁ : k₁ = k
    · subst h₁
      simp only [if_true, get_cons]
      split <;> rfl
    · simp only [if_neg h₁, get_cons, get_insert]
      by_cases h : k' = k
      · subst h
        simp [Ne.symm h₁]
      · simp [h]

@[simp] theorem insert_ne_nil {k : String} {v : Dyn} {m : DynMap} : insert k v m ≠ [] := by
  cases m with
  | nil => simp [insert]
  | cons e m =>
    simp only [insert]
    split <;> simp

end DynMap

end Dart
