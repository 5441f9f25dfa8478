/-
The values of the Firestore client and the order it puts them in
(`model/value_util.cc`, `util/comparison.cc`): by type, and within a type by
value, numbers of both kinds together, arrays and maps from the front.

That this is an order at all, NaN, mixed numbers and nested maps included, is
shown by spelling a value out as a list of tokens (`spelled`) such that values
compare as their spellings do (`compare_spelled`).
-/
import Mathlib.Data.Prod.Lex
import Mathlib.Data.Rat.Floor
import Mathlib.Order.Std
import Mathlib.Order.WithBot
import Mathlib.Tactic.NormNum

namespace Client

/-! ## Numbers -/

/-- A `double`: but for the second zero, every finite one is a rational number. -/
inductive Double where
  | nan
  | negInfinity
  | negZero
  | finite (q : ℚ)
  | infinity
  deriving DecidableEq

namespace Double

def isNan : Double → Bool
  | nan => true
  | _ => false

/-- The number a finite one is. -/
def toRat? : Double → Option ℚ
  | finite q => some q
  | negZero => some 0
  | _ => none

/-- Where a number stands; nowhere if it is none. -/
def value : Double → Option (WithBot (WithTop ℚ))
  | nan => none
  | negInfinity => some ⊥
  | negZero => some ((0 : WithTop ℚ) : WithBot (WithTop ℚ))
  | finite q => some ((q : WithTop ℚ) : WithBot (WithTop ℚ))
  | infinity => some ((⊤ : WithTop ℚ) : WithBot (WithTop ℚ))

/-- `left < right`, which is false of NaN. -/
def lt (left right : Double) : Bool :=
  match left.value, right.value with
  | some x, some y => x < y
  | _, _ => false

/-- `left == right`, which is false of NaN, itself included. -/
def eq (left right : Double) : Bool :=
  match left.value, right.value with
  | some x, some y => x = y
  | _, _ => false

/-- `util::Compare` of doubles: NaN before all numbers. -/
def compare (left right : Double) : Ordering :=
  if left.lt right then .lt
  else if right.lt left then .gt
  else if left.eq right then .eq
  else if !right.isNan then .lt
  else if !left.isNan then .gt
  else .eq

end Double

/-- `static_cast<int64_t>` of a number in its range: towards zero. -/
def truncated (q : ℚ) : Int := q.num.tdiv q.den

/-- `util::CompareMixedNumber`. Where the conversion back to a double is
reached it loses nothing. -/
def compareMixedNumber (doubleValue : Double) (int64Value : Int64) : Ordering :=
  if doubleValue.lt (.finite (-2 ^ 63)) then .lt
  else if !doubleValue.lt (.finite (2 ^ 63)) && !doubleValue.isNan then .gt
  else match doubleValue.toRat? with
    | some q => (Ord.compare (truncated q) int64Value.toInt).then (doubleValue.compare (.finite int64Value.toInt))
    -- NaN: the infinities are out of range
    | none => .lt

/-! ## Values -/

inductive TypeOrder where
  | null
  | boolean
  | number
  | timestamp
  | serverTimestamp
  | string
  | blob
  | reference
  | geoPoint
  | array
  | map
  | maxValue
  deriving DecidableEq

/-- The enumerators' values. -/
def TypeOrder.value : TypeOrder → Nat
  | null => 0
  | boolean => 1
  | number => 2
  | timestamp => 3
  | serverTimestamp => 4
  | string => 5
  | blob => 6
  | reference => 7
  | geoPoint => 8
  | array => 9
  | map => 10
  | maxValue => 11

/-- `google_firestore_v1_Value`. A map's fields are in the order of their keys. -/
inductive Value where
  | null
  | boolean (b : Bool)
  | integer (i : Int64)
  | double (d : Double)
  | timestamp (seconds nanos : Int)
  | string (s : String)
  | bytes (b : List UInt8)
  | reference (s : String)
  | geoPoint (latitude longitude : Double)
  | array (values : List Value)
  | map (fields : List (String × Value))

def kTypeKey : String := "__type__"
def kLocalWriteTimeKey : String := "__local_write_time__"
def kServerTimestampSentinel : String := "server_timestamp"
def kRawMaxValueFieldValue : String := "__max__"

/-- A timestamp not yet set by the server is a map of a reserved type. -/
def isServerTimestamp (fields : List (String × Value)) : Bool :=
  fields.length ≤ 3 && match fields.find? (·.1 == kTypeKey) with
    | some (_, .string s) => s == kServerTimestampSentinel
    | _ => false

def isMaxValue : List (String × Value) → Bool
  | [(k, .string s)] => k == kTypeKey && s == kRawMaxValueFieldValue
  | _ => false

/-- `GetLocalWriteTime`, which fails where there is none. -/
def getLocalWriteTime (fields : List (String × Value)) : Option (Int × Int) :=
  fields.findSome? fun
    | (k, .timestamp seconds nanos) => if k = kLocalWriteTimeKey then some (seconds, nanos) else none
    | _ => none

def getTypeOrder : Value → TypeOrder
  | .null => .null
  | .boolean _ => .boolean
  | .integer _ => .number
  | .double _ => .number
  | .timestamp .. => .timestamp
  | .string _ => .string
  | .bytes _ => .blob
  | .reference _ => .reference
  | .geoPoint .. => .geoPoint
  | .array _ => .array
  | .map fields => if isServerTimestamp fields then .serverTimestamp else if isMaxValue fields then .maxValue else .map

def compareTimestamps (left right : Int × Int) : Ordering :=
  (Ord.compare left.1 right.1).then (Ord.compare left.2 right.2)

/-- `absl::StrSplit(s, '/', absl::SkipEmpty())`. -/
def segments (s : String) : List String := (s.splitOn "/").filter (· ≠ "")

mutual

/-- `model::Compare`. -/
def Value.compare (left right : Value) : Ordering :=
  if getTypeOrder left ≠ getTypeOrder right then Ord.compare (getTypeOrder left).value (getTypeOrder right).value
  else match left, right with
    | .boolean a, .boolean b => Ord.compare a b
    | .integer a, .integer b => Ord.compare a.toInt b.toInt
    | .integer a, .double b => (compareMixedNumber b a).swap
    | .double a, .integer b => compareMixedNumber a b
    | .double a, .double b => a.compare b
    | .timestamp s n, .timestamp s' n' => compareTimestamps (s, n) (s', n')
    | .string a, .string b => Ord.compare a b
    | .bytes a, .bytes b => List.compareLex Ord.compare a b
    | .reference a, .reference b => List.compareLex Ord.compare (segments a) (segments b)
    | .geoPoint a a', .geoPoint b b' => (a.compare b).then (a'.compare b')
    | .array a, .array b => compareArrays a b
    | .map a, .map b =>
      if isServerTimestamp a then
        match getLocalWriteTime a, getLocalWriteTime b with
        | some x, some y => compareTimestamps x y
        -- here `GetLocalWriteTime` has failed
        | none, some _ => .lt
        | some _, none => .gt
        | none, none => .eq
      else if isMaxValue a then .eq
      else compareObjects a b
    | _, _ => .eq

/-- `CompareArrays`: at the first difference, else by length. -/
def compareArrays : List Value → List Value → Ordering
  | [], [] => .eq
  | [], _ :: _ => .lt
  | _ :: _, [] => .gt
  | v :: left, w :: right => (v.compare w).then (compareArrays left right)

/-- `CompareObjects`: at the first difference of a key or a value, else by the number of fields. -/
def compareObjects : List (String × Value) → List (String × Value) → Ordering
  | [], [] => .eq
  | [], _ :: _ => .lt
  | _ :: _, [] => .gt
  | (k, v) :: left, (l, w) :: right => (Ord.compare k l).then ((v.compare w).then (compareObjects left right))

end

mutual

/-- `model::Equals`: numbers of both kinds are never equal, nor are NaN coordinates. A timestamp yet to be set has a local
write time, as the client encodes it; where there is none the source stops. -/
def Value.equals (left right : Value) : Bool :=
  getTypeOrder left = getTypeOrder right && match left, right with
    | .null, .null => true
    | .boolean a, .boolean b => a = b
    | .integer a, .integer b => a = b
    | .double a, .double b => a = b
    | .timestamp s n, .timestamp s' n' => s = s' && n = n'
    | .string a, .string b => a = b
    | .bytes a, .bytes b => List.compareLex Ord.compare a b = .eq
    | .reference a, .reference b => a = b
    | .geoPoint a a', .geoPoint b b' => a.eq b && a'.eq b'
    | .array a, .array b => arrayEquals a b
    | .map a, .map b =>
      if isServerTimestamp a then getLocalWriteTime a = getLocalWriteTime b else objectEquals a b
    | _, _ => false

def arrayEquals : List Value → List Value → Bool
  | [], [] => true
  | v :: left, w :: right => v.equals w && arrayEquals left right
  | _, _ => false

def objectEquals : List (String × Value) → List (String × Value) → Bool
  | [], [] => true
  | (k, v) :: left, (l, w) :: right => k = l && v.equals w && objectEquals left right
  | _, _ => false

end

instance : BEq Value := ⟨Value.equals⟩

/-! ## Numbers are in order -/

/-- Where a double stands: NaN before all numbers. -/
def Double.rank (d : Double) : WithBot (WithBot (WithTop ℚ)) :=
  match d.value with
  | none => ⊥
  | some x => x

theorem compare_map {α β : Type*} [LinearOrder α] [LinearOrder β] {f : α → β} (hf : ∀ {a b}, a < b → f a < f b)
    (a b : α) : Ord.compare (f a) (f b) = Ord.compare a b := by
  rcases lt_trichotomy a b with h | rfl | h
  · rw [compare_lt_iff_lt.2 h, compare_lt_iff_lt.2 (hf h)]
  · rw [compare_eq_iff_eq.2 rfl, compare_eq_iff_eq.2 rfl]
  · rw [compare_gt_iff_gt.2 h, compare_gt_iff_gt.2 (hf h)]

theorem Double.compare_eq (a b : Double) : a.compare b = Ord.compare a.rank b.rank := by
  have hnan (d : Double) : d.isNan = d.value.isNone := by cases d <;> rfl
  unfold compare rank lt eq
  rw [hnan, hnan]
  cases a.value with
  | none =>
    cases b.value with
    | none => simp
    | some y => simpa using (compare_lt_iff_lt.2 (WithBot.bot_lt_coe y)).symm
  | some x =>
    cases b.value with
    | none => simpa using (compare_gt_iff_gt.2 (WithBot.bot_lt_coe x)).symm
    | some y =>
      refine Eq.trans ?_ (compare_map WithBot.coe_lt_coe.2 x y).symm
      rcases lt_trichotomy x y with h | rfl | h
      · simp [h, compare_lt_iff_lt.2 h]
      · simp
      · simp [h, h.le, compare_gt_iff_gt.2 h]

theorem truncated_eq (q : ℚ) : truncated q = if 0 ≤ q then ⌊q⌋ else ⌈q⌉ := by
  split
  · next h => rw [truncated, Int.tdiv_eq_ediv_of_nonneg (Rat.num_nonneg.2 h), Rat.floor_def']
  · next h =>
    have hq : 0 ≤ -q.num := by simpa using (Rat.num_nonneg (q := -q)).2 (by linarith)
    rw [truncated, ← neg_neg q.num, Int.neg_tdiv, Int.tdiv_eq_ediv_of_nonneg hq, Rat.ceil_def']

theorem Double.lt_of_toRat? {d d' : Double} {p q : ℚ} (hp : d.toRat? = some p) (hq : d'.toRat? = some q) :
    d.lt d' = decide (p < q) := by
  cases d <;> cases hp <;> cases d' <;> cases hq <;> simp [lt, value]

theorem Double.compare_of_toRat? {d d' : Double} {p q : ℚ} (hp : d.toRat? = some p) (hq : d'.toRat? = some q) :
    d.compare d' = Ord.compare p q := by
  have hrank {d : Double} {p : ℚ} (h : d.toRat? = some p) :
      d.rank = (((p : WithTop ℚ) : WithBot (WithTop ℚ)) : WithBot (WithBot (WithTop ℚ))) := by
    cases d <;> cases h <;> rfl
  rw [compare_eq, hrank hp, hrank hq]
  exact compare_map (f := fun q : ℚ => (((q : WithTop ℚ) : WithBot (WithTop ℚ)) : WithBot (WithBot (WithTop ℚ))))
    (by simp) p q

/-- A number of one kind and one of the other compare as the numbers they are. -/
theorem compareMixedNumber_eq (d : Double) (i : Int64) : compareMixedNumber d i = d.compare (.finite i.toInt) := by
  have hmin : (-2 ^ 63 : ℚ) ≤ i.toInt := by exact_mod_cast i.le_toInt
  have hmax : (i.toInt : ℚ) < 2 ^ 63 := by exact_mod_cast i.toInt_lt
  cases hd : d.toRat? with
  | none =>
    cases d with
    | nan => rfl
    | negInfinity => simp [compareMixedNumber, Double.compare, Double.lt, Double.value]
    | infinity => simp [compareMixedNumber, Double.compare, Double.lt, Double.value, Double.isNan]
    | negZero => cases hd
    | finite => cases hd
  | some q =>
    have hnan : d.isNan = false := by cases d <;> first | rfl | cases hd
    unfold compareMixedNumber
    rw [Double.lt_of_toRat? hd rfl, Double.lt_of_toRat? hd rfl, Double.compare_of_toRat? hd rfl, hd, hnan]
    by_cases h₁ : q < -2 ^ 63
    · rw [if_pos (by simpa using h₁), compare_lt_iff_lt.2 (h₁.trans_le hmin)]
    rw [if_neg (by simpa using h₁)]
    by_cases h₂ : q < 2 ^ 63
    · rw [if_neg (by simp [h₂])]
      dsimp only
      rcases lt_trichotomy (truncated q) i.toInt with h | h | h
      · have hq : q < i.toInt := by
          rw [truncated_eq] at h
          split at h
          · exact Int.floor_lt.1 h
          · exact (Int.le_ceil q).trans_lt (by exact_mod_cast h)
        rw [compare_lt_iff_lt.2 h, compare_lt_iff_lt.2 hq]
        rfl
      · rw [compare_eq_iff_eq.2 h]
        rfl
      · have hq : i.toInt < q := by
          rw [truncated_eq] at h
          split at h
          · exact lt_of_lt_of_le (by exact_mod_cast h) (Int.floor_le q)
          · exact Int.lt_ceil.1 h
        rw [compare_gt_iff_gt.2 h, compare_gt_iff_gt.2 hq]
        rfl
    · rw [if_pos (by simp [h₂]), compare_gt_iff_gt.2 (hmax.trans_le (not_lt.1 h₂))]

/-! ## Values are in order -/

/-- What values are spelled with. -/
abbrev Token := WithBot (WithBot (WithTop ℚ)) ×ₗ String

namespace Token

def num (d : Double) : Token := toLex (d.rank, "")

def int (i : Int) : Token := num (.finite i)

def text (s : String) : Token := toLex (⊥, s)

@[simp] theorem compare_num (a b : Double) : Ord.compare (num a) (num b) = a.compare b := by
  rw [Double.compare_eq]
  exact Ordering.then_eq

@[simp] theorem compare_int (a b : Int) : Ord.compare (int a) (int b) = Ord.compare a b := by
  rw [int, int, compare_num, Double.compare_eq]
  exact compare_map (f := fun i : Int => (((((i : ℚ) : WithTop ℚ) : WithBot (WithTop ℚ))) : WithBot (WithBot (WithTop ℚ))))
    (by simp) a b

@[simp] theorem compare_num_int (d : Double) (i : Int64) :
    Ord.compare (num d) (int i.toInt) = compareMixedNumber d i := by
  rw [compareMixedNumber_eq, int, compare_num]

@[simp] theorem compare_int_num (i : Int64) (d : Double) :
    Ord.compare (int i.toInt) (num d) = (compareMixedNumber d i).swap := by
  rw [Std.OrientedOrd.eq_swap (a := int i.toInt), compare_num_int]

theorem compare_byte (x y : UInt8) : Ord.compare (x.toNat : Int) y.toNat = Ord.compare x y := by
  rw [compare_map (f := fun n : Nat => (n : Int)) (by simp)]
  simp [Ord.compare, compareOfLessAndEq, UInt8.lt_iff_toNat_lt, UInt8.toNat_inj]

@[simp] theorem compare_text (s t : String) : Ord.compare (text s) (text t) = Ord.compare s t := by
  show (Ord.compare (⊥ : WithBot (WithBot (WithTop ℚ))) ⊥).then (Ord.compare s t) = Ord.compare s t
  rw [compare_eq_iff_eq.2 rfl]
  rfl

end Token

open Token

/-- A list spelled: before each element that there is one, after all that there is none. -/
def spelledList {α : Type*} (spell : α → List Token) : List α → List Token
  | [] => [int 0]
  | a :: as => int 1 :: (spell a ++ spelledList spell as)

def spelledTime : Option (Int × Int) → List Token
  | none => [int 0]
  | some t => [int 1, int t.1, int t.2]

mutual

def Value.spelled : Value → List Token
  | .null => [int 0]
  | .boolean b => [int 1, int (if b then 1 else 0)]
  | .integer i => [int 2, int i.toInt]
  | .double d => [int 2, num d]
  | .timestamp seconds nanos => [int 3, int seconds, int nanos]
  | .string s => [int 5, text s]
  | .bytes b => int 6 :: spelledList (fun x => [int x.toNat]) b
  | .reference s => int 7 :: spelledList (fun s => [text s]) (segments s)
  | .geoPoint latitude longitude => [int 8, num latitude, num longitude]
  | .array values => int 9 :: spelledArrays values
  | .map fields =>
    if isServerTimestamp fields then int 4 :: spelledTime (getLocalWriteTime fields)
    else if isMaxValue fields then [int 11]
    else int 10 :: spelledObjects fields

def spelledArrays : List Value → List Token
  | [] => [int 0]
  | v :: values => int 1 :: (v.spelled ++ spelledArrays values)

def spelledObjects : List (String × Value) → List Token
  | [] => [int 0]
  | (k, v) :: fields => int 1 :: text k :: (v.spelled ++ spelledObjects fields)

end

theorem compare_zero_one : Ord.compare (0 : Int) 1 = .lt := rfl

theorem compare_one_zero : Ord.compare (1 : Int) 0 = .gt := rfl

theorem compare_spelledList {α : Type*} {spell : α → List Token} {cmp : α → α → Ordering}
    (h : ∀ a b s t, Ord.compare (spell a ++ s) (spell b ++ t) = (cmp a b).then (Ord.compare s t)) (as bs : List α)
    (s t : List Token) :
    Ord.compare (spelledList spell as ++ s) (spelledList spell bs ++ t) =
      (List.compareLex cmp as bs).then (Ord.compare s t) := by
  induction as generalizing bs with
  | nil => cases bs <;> simp [spelledList, compare_zero_one, List.compareLex]
  | cons a as ih =>
    cases bs with
    | nil => simp [spelledList, compare_one_zero, List.compareLex]
    | cons b bs =>
      simp [spelledList, h, ih, List.compareLex_cons_cons, Ordering.then_assoc]

theorem compare_spelledTime (x y : Option (Int × Int)) (s t : List Token) :
    Ord.compare (spelledTime x ++ s) (spelledTime y ++ t) =
      (match x, y with
        | some x, some y => compareTimestamps x y
        | none, some _ => .lt
        | some _, none => .gt
        | none, none => .eq).then (Ord.compare s t) := by
  cases x <;> cases y <;>
    simp [spelledTime, compare_zero_one, compare_one_zero, compareTimestamps, Ordering.then_assoc]

theorem getTypeOrder_map (fields : List (String × Value)) :
    isServerTimestamp fields ∧ getTypeOrder (.map fields) = .serverTimestamp ∨
      isServerTimestamp fields = false ∧ isMaxValue fields ∧ getTypeOrder (.map fields) = .maxValue ∨
      isServerTimestamp fields = false ∧ isMaxValue fields = false ∧ getTypeOrder (.map fields) = .map := by
  cases hs : isServerTimestamp fields <;> cases hm : isMaxValue fields <;> simp [getTypeOrder, hs, hm]

theorem getTypeOrder_map_eq {fields : List (String × Value)} :
    getTypeOrder (.map fields) = .serverTimestamp ↔ isServerTimestamp fields = true := by
  obtain ⟨hs, ht⟩ | ⟨hs, -, ht⟩ | ⟨hs, -, ht⟩ := getTypeOrder_map fields <;> simp [hs, ht]

theorem spelled_head (v : Value) : ∃ l, v.spelled = int (getTypeOrder v).value :: l := by
  cases v with
  | map fields =>
    obtain ⟨hs, ht⟩ | ⟨hs, hm, ht⟩ | ⟨hs, hm, ht⟩ := getTypeOrder_map fields
    · exact ⟨_, by rw [Value.spelled, if_pos hs, ht]; rfl⟩
    · exact ⟨_, by rw [Value.spelled, if_neg (by simp [hs]), if_pos hm, ht]; rfl⟩
    · exact ⟨_, by rw [Value.spelled, if_neg (by simp [hs]), if_neg (by simp [hm]), ht]; rfl⟩
  | _ => exact ⟨_, rfl⟩

theorem typeOrder_value_injective : ∀ {a b : TypeOrder}, a.value = b.value → a = b := by
  intro a b h
  cases a <;> cases b <;> first | rfl | cases h

mutual

/-- Values compare as they are spelled, whatever follows them. -/
theorem compare_spelled : ∀ (a b : Value) (s t : List Token),
    Ord.compare (a.spelled ++ s) (b.spelled ++ t) = (a.compare b).then (Ord.compare s t) := by
  intro a b s t
  by_cases htype : getTypeOrder a = getTypeOrder b
  · unfold Value.compare
    rw [if_neg (not_not.2 htype)]
    cases a <;> cases b
    case null.null => simp [Value.spelled]
    case boolean.boolean a b => cases a <;> cases b <;> rfl
    case integer.integer => simp [Value.spelled]
    case integer.double => simp [Value.spelled]
    case double.integer => simp [Value.spelled]
    case double.double => simp [Value.spelled]
    case timestamp.timestamp => simp [Value.spelled, compareTimestamps, Ordering.then_assoc]
    case string.string => simp [Value.spelled]
    case bytes.bytes a b =>
      simp only [Value.spelled, List.cons_append, List.compare_cons_cons]
      exact compare_spelledList (by simp [compare_byte]) a b s t
    case reference.reference a b =>
      simp only [Value.spelled, List.cons_append, List.compare_cons_cons]
      exact compare_spelledList (by simp) (segments a) (segments b) s t
    case geoPoint.geoPoint => simp [Value.spelled, Ordering.then_assoc]
    case array.array a b => simp [Value.spelled, compare_spelledArrays a b]
    case map.map a b =>
      obtain ⟨ha, hta⟩ | ⟨ha, ha', hta⟩ | ⟨ha, ha', hta⟩ := getTypeOrder_map a <;>
        obtain ⟨hb, htb⟩ | ⟨hb, hb', htb⟩ | ⟨hb, hb', htb⟩ := getTypeOrder_map b <;>
        rw [hta, htb] at htype <;> cases htype
      · simp [Value.spelled, ha, hb, compare_spelledTime]
      · simp [Value.spelled, ha, hb, ha', hb']
      · simp [Value.spelled, ha, hb, ha', hb', compare_spelledObjects a b]
    -- the others are of different types
    all_goals
      first
        | cases htype
        | (obtain ⟨_, h⟩ | ⟨_, _, h⟩ | ⟨_, _, h⟩ := getTypeOrder_map ‹_› <;> rw [h] at htype <;> cases htype)
  · obtain ⟨la, ha⟩ := spelled_head a
    obtain ⟨lb, hb⟩ := spelled_head b
    have hne : Ord.compare ((getTypeOrder a).value : Int) (getTypeOrder b).value ≠ .eq := fun h =>
      htype (typeOrder_value_injective (by exact_mod_cast compare_eq_iff_eq.1 h))
    have hcast := compare_map (f := fun n : Nat => (n : Int)) (by simp) (getTypeOrder a).value (getTypeOrder b).value
    unfold Value.compare
    rw [if_pos htype, ha, hb, ← hcast]
    simp only [List.cons_append, List.compare_cons_cons, compare_int]
    cases h : Ord.compare ((getTypeOrder a).value : Int) (getTypeOrder b).value with
    | eq => exact absurd h hne
    | lt => rfl
    | gt => rfl

theorem compare_spelledArrays : ∀ (a b : List Value) (s t : List Token),
    Ord.compare (spelledArrays a ++ s) (spelledArrays b ++ t) = (compareArrays a b).then (Ord.compare s t)
  | [], [], s, t => by simp [spelledArrays, compareArrays]
  | [], _ :: _, s, t => by simp [spelledArrays, compareArrays, compare_zero_one]
  | _ :: _, [], s, t => by simp [spelledArrays, compareArrays, compare_one_zero]
  | v :: a, w :: b, s, t => by
    simp [spelledArrays, compareArrays, compare_spelled v w, compare_spelledArrays a b, Ordering.then_assoc]

theorem compare_spelledObjects : ∀ (a b : List (String × Value)) (s t : List Token),
    Ord.compare (spelledObjects a ++ s) (spelledObjects b ++ t) = (compareObjects a b).then (Ord.compare s t)
  | [], [], s, t => by simp [spelledObjects, compareObjects]
  | [], _ :: _, s, t => by simp [spelledObjects, compareObjects, compare_zero_one]
  | _ :: _, [], s, t => by simp [spelledObjects, compareObjects, compare_one_zero]
  | (k, v) :: a, (l, w) :: b, s, t => by
    simp [spelledObjects, compareObjects, compare_spelled v w, compare_spelledObjects a b,
      Ordering.then_assoc]

end

theorem Value.compare_eq (a b : Value) : a.compare b = Ord.compare a.spelled b.spelled := by
  simpa using (compare_spelled a b [] []).symm

theorem Value.compare_eq_compareOn : Value.compare = compareOn Value.spelled := funext₂ Value.compare_eq

instance : Std.TransCmp Value.compare := by
  rw [Value.compare_eq_compareOn]
  exact inferInstanceAs (Std.TransCmp (compareOn Value.spelled))

theorem Double.compare_of_eq {a b : Double} (h : a.eq b = true) : a.compare b = .eq := by
  rw [Double.compare_eq, compare_eq_iff_eq]
  unfold Double.eq at h
  unfold rank
  split at h
  · next hx hy => rw [hx, hy, of_decide_eq_true h]
  · cases h

mutual

/-- Equal values are in the same place. -/
theorem compare_of_equals : ∀ {a b : Value}, a.equals b = true → a.compare b = .eq := by
  intro a b h
  unfold Value.equals at h
  rw [Bool.and_eq_true] at h
  obtain ⟨htype, h⟩ := h
  unfold Value.compare
  rw [if_neg (by simpa using htype)]
  have hrefl (d : Double) : d.compare d = .eq := by rw [Double.compare_eq, compare_eq_iff_eq]
  cases a <;> cases b
  case null.null => rfl
  case boolean.boolean => simp_all
  case integer.integer => simp_all
  case double.double => simp_all
  case timestamp.timestamp => simp_all [compareTimestamps]
  case string.string => simp_all
  case bytes.bytes => simpa using h
  case reference.reference a b =>
    obtain rfl : a = b := by simpa using h
    show List.compareLex Ord.compare (segments a) (segments a) = .eq
    exact Std.ReflCmp.compare_self
  case geoPoint.geoPoint =>
    obtain ⟨h, h'⟩ := Bool.and_eq_true_iff.1 h
    simp [Double.compare_of_eq h, Double.compare_of_eq h']
  case array.array a b => exact compare_of_arrayEquals h
  case map.map a b =>
    dsimp only at h ⊢
    split at h
    · next hs =>
      rw [if_pos hs, of_decide_eq_true h]
      cases getLocalWriteTime b <;> simp [compareTimestamps]
    · next hs =>
      rw [if_neg hs, compare_of_objectEquals h]
      split <;> rfl
  all_goals simp at h

theorem compare_of_arrayEquals : ∀ {a b : List Value}, arrayEquals a b = true → compareArrays a b = .eq
  | [], [], _ => rfl
  | v :: a, w :: b, h => by
    simp only [arrayEquals, Bool.and_eq_true] at h
    simp [compareArrays, compare_of_equals h.1, compare_of_arrayEquals h.2]

theorem compare_of_objectEquals : ∀ {a b : List (String × Value)}, objectEquals a b = true → compareObjects a b = .eq
  | [], [], _ => rfl
  | (k, v) :: a, (l, w) :: b, h => by
    simp only [objectEquals, Bool.and_eq_true, decide_eq_true_eq] at h
    simp [compareObjects, h.1.1, compare_of_equals h.1.2, compare_of_objectEquals h.2]

end

theorem Double.eq_symm {a b : Double} (h : a.eq b = true) : b.eq a = true := by
  unfold Double.eq at *
  cases ha : a.value <;> cases hb : b.value <;> simp_all

mutual

theorem equals_symm : ∀ {a b : Value}, a.equals b = true → b.equals a = true := by
  intro a b h
  unfold Value.equals at *
  simp only [Bool.and_eq_true, decide_eq_true_eq] at h ⊢
  obtain ⟨htype, h⟩ := h
  refine ⟨htype.symm, ?_⟩
  cases a <;> cases b
  case bytes.bytes a b =>
    have hab : a = b := Std.LawfulEqCmp.eq_of_compare (of_decide_eq_true h)
    subst hab
    exact h
  case geoPoint.geoPoint =>
    simp only [Bool.and_eq_true] at h ⊢
    exact ⟨Double.eq_symm h.1, Double.eq_symm h.2⟩
  case array.array => exact arrayEquals_symm h
  case map.map a b =>
    have hs : isServerTimestamp b = isServerTimestamp a := by
      rw [Bool.eq_iff_iff, ← getTypeOrder_map_eq, ← getTypeOrder_map_eq, htype]
    dsimp only at h ⊢
    rw [hs]
    split at h
    · next ha => rw [if_pos ha, ← of_decide_eq_true h, decide_eq_true rfl]
    · next ha =>
      rw [if_neg ha]
      exact objectEquals_symm h
  all_goals simp_all

theorem arrayEquals_symm : ∀ {a b : List Value}, arrayEquals a b = true → arrayEquals b a = true
  | [], [], _ => rfl
  | v :: a, w :: b, h => by
    simp only [arrayEquals, Bool.and_eq_true] at h ⊢
    exact ⟨equals_symm h.1, arrayEquals_symm h.2⟩

theorem objectEquals_symm : ∀ {a b : List (String × Value)}, objectEquals a b = true → objectEquals b a = true
  | [], [], _ => rfl
  | (k, v) :: a, (l, w) :: b, h => by
    simp only [objectEquals, Bool.and_eq_true, decide_eq_true_eq] at h ⊢
    exact ⟨⟨h.1.1.symm, equals_symm h.1.2⟩, objectEquals_symm h.2⟩

end

theorem Double.eq_trans {a b c : Double} (h : a.eq b = true) (h' : b.eq c = true) : a.eq c = true := by
  unfold Double.eq at *
  cases ha : a.value <;> cases hb : b.value <;> cases hc : c.value <;> simp_all

mutual

theorem equals_trans : ∀ {a b c : Value}, a.equals b = true → b.equals c = true → a.equals c = true := by
  intro a b c h h'
  unfold Value.equals at *
  simp only [Bool.and_eq_true, decide_eq_true_eq] at h h' ⊢
  obtain ⟨htype, h⟩ := h
  obtain ⟨htype', h'⟩ := h'
  refine ⟨htype.trans htype', ?_⟩
  cases a <;> cases b <;> cases c
  case bytes.bytes.bytes a b c =>
    have hab : a = b := Std.LawfulEqCmp.eq_of_compare (of_decide_eq_true h)
    rw [hab]
    exact h'
  case geoPoint.geoPoint.geoPoint =>
    simp only [Bool.and_eq_true] at h h' ⊢
    exact ⟨Double.eq_trans h.1 h'.1, Double.eq_trans h.2 h'.2⟩
  case array.array.array => exact arrayEquals_trans h h'
  case map.map.map a b c =>
    -- the one type of both maps says which of the two ways they are compared
    have hs : isServerTimestamp a = isServerTimestamp b := by
      rw [Bool.eq_iff_iff, ← getTypeOrder_map_eq, ← getTypeOrder_map_eq, htype]
    dsimp only at h h' ⊢
    rw [hs] at h ⊢
    split at h
    · next hb =>
      rw [if_pos hb] at h'
      simp only [decide_eq_true_eq] at h h'
      rw [if_pos hb, h, h', decide_eq_true rfl]
    · next hb =>
      rw [if_neg hb] at h' ⊢
      exact objectEquals_trans h h'
  all_goals simp_all

theorem arrayEquals_trans : ∀ {a b c : List Value}, arrayEquals a b = true → arrayEquals b c = true → arrayEquals a c = true
  | [], [], [], _, _ => rfl
  | u :: a, v :: b, w :: c, h, h' => by
    simp only [arrayEquals, Bool.and_eq_true] at h h' ⊢
    exact ⟨equals_trans h.1 h'.1, arrayEquals_trans h.2 h'.2⟩

theorem objectEquals_trans : ∀ {a b c : List (String × Value)}, objectEquals a b = true → objectEquals b c = true →
    objectEquals a c = true
  | [], [], [], _, _ => rfl
  | (k, u) :: a, (l, v) :: b, (m, w) :: c, h, h' => by
    simp only [objectEquals, Bool.and_eq_true, decide_eq_true_eq] at h h' ⊢
    exact ⟨⟨h.1.1.trans h'.1.1, equals_trans h.1.2 h'.1.2⟩, objectEquals_trans h.2 h'.2⟩

end

/-- The order of values is one: no two values are each before the other, what
is not after a value that is not after a third is not after the third, values
that compare the same stand in the same place to every other. Equal values
compare the same, and a number of one kind and one of the other compare as
numbers. -/
theorem compare_ordered :
    (∀ a b : Value, a.compare b = (b.compare a).swap) ∧
      (∀ a b c : Value, (a.compare b).isLE → (b.compare c).isLE → (a.compare c).isLE) ∧
      (∀ a b c : Value, a.compare b = .eq → a.compare c = b.compare c) ∧
      (∀ a b : Value, a.equals b → a.compare b = .eq) ∧
      ∀ (i : Int64) (q : ℚ), (Value.integer i).compare (.double (.finite q)) = Ord.compare (i.toInt : ℚ) q := by
  refine ⟨fun a b => Std.OrientedCmp.eq_swap, fun a b c => Std.TransCmp.isLE_trans, fun a b c => Std.TransCmp.congr_left,
    fun a b => compare_of_equals, fun i q => ?_⟩
  have h : (Value.integer i).compare (.double (.finite q)) = (compareMixedNumber (.finite q) i).swap := by
    simp [Value.compare, getTypeOrder]
  rw [h, compareMixedNumber_eq, Double.compare_of_toRat? rfl rfl, Std.OrientedOrd.eq_swap, Ordering.swap_swap]

end Client
