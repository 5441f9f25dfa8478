/-
The client's persistent maps (`immutable/tree_sorted_map.h`,
`immutable/array_sorted_map.h`, `immutable/sorted_map.h`): a map is an array
while it is small and a tree once it has outgrown the array, and goes back to
an array when it is emptied.

Each kind carries its invariant, so that no map out of order, out of balance
or over the array's bound can be written down; the array's assertion that it
has room is then a fact used by `SortedMap.insert`, not a branch of it. Of
either kind a map says of its entries what `Entries` does.
-/
import Mathlib.Data.List.Forall2
import Sdapk.Balanced

namespace LlrbNode

open Std Entries

variable {κ ν : Type*} {cmp : κ → κ → Ordering} {k : κ}

/-! ## Walks down the tree -/

def contains (cmp : κ → κ → Ordering) (k : κ) : LlrbNode κ ν → Bool
  | empty => false
  | node _ _ e l r => match cmp k e.1 with
    | .eq => true
    | .lt => l.contains cmp k
    | .gt => r.contains cmp k

/-- `prunedNodes` entries are known to come before the tree's. -/
def findIndex (cmp : κ → κ → Ordering) (k : κ) (prunedNodes : Nat) : LlrbNode κ ν → Option Nat
  | empty => none
  | node _ _ e l r => match cmp k e.1 with
    | .eq => some (prunedNodes + l.size)
    | .lt => l.findIndex cmp k prunedNodes
    | .gt => r.findIndex cmp k (prunedNodes + l.size + 1)

/-- The entry of the rightmost node. -/
def max? : LlrbNode κ ν → Option (κ × ν)
  | empty => none
  | node _ _ e _ r => if r.isEmpty then some e else r.max?

theorem max?_eq (t : LlrbNode κ ν) : t.max? = t.toList.getLast? := by
  induction t with
  | empty => rfl
  | node _ _ e l r _ ih =>
    cases r with
    | empty => simp [max?]
    | node => simpa [max?, List.getLast?_append, List.getLast?_cons] using ih

theorem contains_eq [TransCmp cmp] {t : LlrbNode κ ν} (h : Sorted cmp t.toList) :
    t.contains cmp k = (find cmp k t.toList).isSome := by
  induction t with
  | empty => rfl
  | node c s e l r ihl ihr =>
    unfold contains
    split
    · next he => rw [toList_node, find_split_eq h he]; rfl
    · next he => rw [toList_node, find_split_lt h he, ihl h.left]
    · next he => rw [toList_node, find_split_gt h he, ihr h.right]

theorem findIndex_eq [TransCmp cmp] {t : LlrbNode κ ν} (h : Sorted cmp t.toList) (hs : t.Sized) (n : Nat) :
    t.findIndex cmp k n = (find cmp k t.toList).map fun _ => n + rank cmp k t.toList := by
  induction t generalizing n with
  | empty => rfl
  | node c s e l r ihl ihr =>
    have hsize := hs.2.1.size_eq
    unfold findIndex
    split
    · next he => rw [toList_node, find_split_eq h he, rank_split_eq h he, hsize]; rfl
    · next he => rw [toList_node, find_split_lt h he, rank_split_lt h he, ihl h.left hs.2.1]
    · next he =>
      rw [toList_node, find_split_gt h he, rank_split_gt h he, ihr h.right hs.2.2, hsize]
      simp [Nat.add_assoc]

/-! ## Iterators

An iterator is the stack of nodes yet to be visited, each with what is to its
right; `remaining` lists their entries. -/

def accumulateLeft (stack : List (LlrbNode κ ν)) : LlrbNode κ ν → List (LlrbNode κ ν)
  | empty => stack
  | node c s e l r => l.accumulateLeft (node c s e l r :: stack)

def lowerBound (cmp : κ → κ → Ordering) (k : κ) (stack : List (LlrbNode κ ν)) : LlrbNode κ ν → List (LlrbNode κ ν)
  | empty => stack
  | node c s e l r => match cmp k e.1 with
    | .eq => node c s e l r :: stack
    | .lt => l.lowerBound cmp k (node c s e l r :: stack)
    | .gt => r.lowerBound cmp k stack

/-- `operator*`: the entry of the node on top. -/
def current : List (LlrbNode κ ν) → Option (κ × ν)
  | node _ _ e _ _ :: _ => some e
  | _ => none

/-- `operator++`. -/
def next : List (LlrbNode κ ν) → List (LlrbNode κ ν)
  | [] => []
  | n :: stack => n.right.accumulateLeft stack

def begin (t : LlrbNode κ ν) : List (LlrbNode κ ν) := t.accumulateLeft []

def remaining (stack : List (LlrbNode κ ν)) : List (κ × ν) :=
  stack.flatMap fun
    | empty => []
    | node _ _ e _ r => e :: r.toList

@[simp] theorem remaining_nil : remaining ([] : List (LlrbNode κ ν)) = [] := rfl
@[simp] theorem remaining_cons (c s) (e : κ × ν) (l r stack) :
    remaining (node c s e l r :: stack) = e :: (r.toList ++ remaining stack) := rfl

theorem remaining_accumulateLeft (t : LlrbNode κ ν) (stack : List (LlrbNode κ ν)) :
    remaining (t.accumulateLeft stack) = t.toList ++ remaining stack := by
  induction t generalizing stack with
  | empty => rfl
  | node c s e l r ihl => simp [accumulateLeft, ihl]

theorem remaining_lowerBound [TransCmp cmp] {t : LlrbNode κ ν} (h : Sorted cmp t.toList) (stack : List (LlrbNode κ ν)) :
    remaining (t.lowerBound cmp k stack) = (t.toList.filter fun e => cmp k e.1 != .gt) ++ remaining stack := by
  induction t generalizing stack with
  | empty => rfl
  | node c s e l r ihl ihr =>
    have above (he : (cmp k e.1).isLE) : (r.toList.filter fun e => cmp k e.1 != .gt) = r.toList := by
      simp only [List.filter_eq_self, bne_iff_ne, ne_eq]
      intro b hb
      simp [TransCmp.lt_of_isLE_of_lt he (h.above b hb)]
    have below (he : (cmp k e.1).isGE) : (l.toList.filter fun e => cmp k e.1 != .gt) = [] := by
      simp only [List.filter_eq_nil_iff, bne_iff_ne, ne_eq, not_not]
      intro a ha
      exact OrientedCmp.gt_of_lt (TransCmp.lt_of_lt_of_isLE (h.below a ha) (OrientedCmp.isLE_of_isGE he))
    unfold lowerBound
    split
    · next he => simp [above, below, he]
    · next he => simp [ihl h.left, above, he]
    · next he => simp [ihr h.right, below, he]

/-- Only nodes with an entry are on a stack. -/
def Standing (stack : List (LlrbNode κ ν)) : Prop := ∀ n ∈ stack, n.isEmpty = false

theorem Standing.accumulateLeft {stack : List (LlrbNode κ ν)} (h : Standing stack) (t : LlrbNode κ ν) :
    Standing (t.accumulateLeft stack) := by
  induction t generalizing stack with
  | empty => exact h
  | node c s e l r ihl => exact ihl (List.forall_mem_cons.2 ⟨rfl, h⟩)

theorem Standing.lowerBound {stack : List (LlrbNode κ ν)} (h : Standing stack) (t : LlrbNode κ ν) :
    Standing (t.lowerBound cmp k stack) := by
  induction t generalizing stack with
  | empty => exact h
  | node c s e l r ihl ihr =>
    unfold LlrbNode.lowerBound
    split
    · exact List.forall_mem_cons.2 ⟨rfl, h⟩
    · exact ihl (List.forall_mem_cons.2 ⟨rfl, h⟩)
    · exact ihr h

theorem Standing.current {stack : List (LlrbNode κ ν)} (h : Standing stack) :
    LlrbNode.current stack = (remaining stack).head? := by
  match stack with
  | [] => rfl
  | node .. :: _ => simp [LlrbNode.current]
  | .empty :: _ => simp [Standing] at h

theorem Standing.next {stack : List (LlrbNode κ ν)} (h : Standing stack) :
    Standing (LlrbNode.next stack) ∧ remaining (LlrbNode.next stack) = (remaining stack).tail := by
  match stack with
  | [] => exact ⟨h, rfl⟩
  | node .. :: stack =>
    have hs : Standing stack := fun n hn => h n (List.mem_cons_of_mem _ hn)
    exact ⟨hs.accumulateLeft _, by simp [LlrbNode.next, remaining_accumulateLeft]⟩
  | .empty :: _ => simp [Standing] at h

/-- An iterator visits the entries in order: it starts at all of them, shows
the first of those remaining, and drops it on the way to the next. -/
theorem begin_spec (t : LlrbNode κ ν) : Standing t.begin ∧ remaining t.begin = t.toList :=
  ⟨Standing.accumulateLeft (by simp [Standing]) t, by simp [begin, remaining_accumulateLeft]⟩

end LlrbNode

namespace Immutable

open Std Entries

variable {κ ν : Type*} {cmp : κ → κ → Ordering}

/-! ## TreeSortedMap -/

structure TreeSortedMap (κ ν : Type*) (cmp : κ → κ → Ordering) where
  root : LlrbNode κ ν
  sorted : Sorted cmp root.toList
  sized : root.Sized
  balanced : ∃ n, root.Balanced .black n

namespace TreeSortedMap

def empty : TreeSortedMap κ ν cmp := ⟨.empty, .nil, trivial, 0, .empty⟩

def size (m : TreeSortedMap κ ν cmp) : Nat := m.root.size

def entries (m : TreeSortedMap κ ν cmp) : List (κ × ν) := m.root.toList

theorem size_eq (m : TreeSortedMap κ ν cmp) : m.size = m.entries.length := m.sized.size_eq

variable [TransCmp cmp]

def insert (m : TreeSortedMap κ ν cmp) (k : κ) (v : ν) : TreeSortedMap κ ν cmp where
  root := m.root.insert cmp k v
  sorted := LlrbNode.toList_insert m.sorted ▸ put_sorted m.sorted
  sized := m.sized.innerInsert.fixRootColor
  balanced := m.balanced.elim fun _ h => LlrbNode.insert_balanced h

def erase (m : TreeSortedMap κ ν cmp) (k : κ) : TreeSortedMap κ ν cmp where
  root := m.root.erase cmp k
  sorted := m.balanced.elim fun _ h => (LlrbNode.erase_spec h m.sorted).2 ▸ without_sorted m.sorted
  sized := m.sized.innerErase.fixRootColor
  balanced := m.balanced.elim fun _ h => (LlrbNode.erase_spec h m.sorted).1

def create (range : List (κ × ν)) : TreeSortedMap κ ν cmp := range.foldl (fun m e => m.insert e.1 e.2) empty

def find (m : TreeSortedMap κ ν cmp) (k : κ) : Option (κ × ν) :=
  (LlrbNode.current (m.root.lowerBound cmp k [])).filter fun e => cmp k e.1 == .eq

theorem entries_insert (m : TreeSortedMap κ ν cmp) (k : κ) (v : ν) : (m.insert k v).entries = put cmp k v m.entries :=
  LlrbNode.toList_insert m.sorted

theorem entries_erase (m : TreeSortedMap κ ν cmp) (k : κ) : (m.erase k).entries = without cmp k m.entries :=
  m.balanced.elim fun _ h => (LlrbNode.erase_spec h m.sorted).2

theorem find_eq (m : TreeSortedMap κ ν cmp) (k : κ) : m.find k = Entries.find cmp k m.entries := by
  have h : LlrbNode.Standing ([] : List (LlrbNode κ ν)) := by simp [LlrbNode.Standing]
  rw [find, (h.lowerBound m.root).current, LlrbNode.remaining_lowerBound m.sorted]
  rw [LlrbNode.remaining_nil, List.append_nil]
  exact find_eq_head? m.sorted

/-- Putting entries in order over smaller ones appends them. -/
theorem entries_create {range : List (κ × ν)} (h : Sorted cmp range) :
    (create range : TreeSortedMap κ ν cmp).entries = range := by
  have append (m : TreeSortedMap κ ν cmp) (hm : Sorted cmp (m.entries ++ range)) :
      (range.foldl (fun m e => m.insert e.1 e.2) m).entries = m.entries ++ range := by
    induction range generalizing m with
    | nil => simp
    | cons e range ih =>
      have he : (m.insert e.1 e.2).entries = m.entries ++ [e] := by
        rw [entries_insert, ← List.append_nil (m.entries), put_split hm.below]
        simp [put]
      rw [List.foldl_cons, ih (List.pairwise_cons.1 h).2 _ (by simpa [he] using hm), he]
      simp
  simpa [entries, empty, create] using append empty (by simpa [entries, empty] using h)

end TreeSortedMap

/-! ## ArraySortedMap -/

/-- Up to which size a map is an array. -/
def kFixedSize : Nat := 25

/-- `FixedArray::append`, with its assertion that there is room. -/
def FixedArray.append (contents appending : List (κ × ν)) : Option (List (κ × ν)) :=
  if contents.length + appending.length ≤ kFixedSize then some (contents ++ appending) else none

/-- A new array of three segments. -/
def FixedArray.copy (before between after : List (κ × ν)) : Option (List (κ × ν)) := do
  let copy ← append [] before
  let copy ← append copy between
  append copy after

@[ext]
structure ArraySortedMap (κ ν : Type*) (cmp : κ → κ → Ordering) where
  array : List (κ × ν)
  sorted : Sorted cmp array
  bounded : array.length ≤ kFixedSize

/-- The array after an insert; no array where the assertion fails. -/
def insertArray (cmp : κ → κ → Ordering) [BEq ν] (array : List (κ × ν)) (k : κ) (v : ν) : Option (List (κ × ν)) :=
  let pos := array.findIdx fun e => cmp e.1 k != .lt
  let replacing := (array[pos]?).filter fun e => cmp k e.1 == .eq
  if (replacing.any fun e => v == e.2) then some array
  else FixedArray.copy (array.take pos) [(k, v)] (array.drop (if replacing.isSome then pos + 1 else pos))

/-- The array after an erase. -/
def eraseArray (cmp : κ → κ → Ordering) (array : List (κ × ν)) (k : κ) : Option (List (κ × ν)) :=
  let pos := array.findIdx fun e => cmp k e.1 == .eq
  if pos = array.length then some array
  else if array.length ≤ 1 then some []
  else do
    let copy ← FixedArray.append [] (array.take pos)
    FixedArray.append copy (array.drop (pos + 1))

section

variable {k : κ} {v : ν} {l : List (κ × ν)}

/-- A list in order around the place of a key. -/
theorem exists_place (h : Sorted cmp l) : ∃ a b, l = a ++ b ∧ (∀ e ∈ a, cmp e.1 k = .lt) ∧
    (l.findIdx fun e => cmp e.1 k != .lt) = a.length ∧ ∀ e b', b = e :: b' → cmp e.1 k ≠ .lt := by
  induction l with
  | nil => exact ⟨[], [], rfl, by simp, rfl, by simp⟩
  | cons e l ih =>
    by_cases he : cmp e.1 k = .lt
    · obtain ⟨a, b, rfl, ha, hidx, hb⟩ := ih (List.pairwise_cons.1 h).2
      exact ⟨e :: a, b, rfl, List.forall_mem_cons.2 ⟨he, ha⟩, by simp [List.findIdx_cons, he, hidx], hb⟩
    · have hidx : (cmp e.1 k != .lt) = true := by simpa using he
      exact ⟨[], e :: l, rfl, by simp, by simp [List.findIdx_cons, hidx], fun e' b' h => by cases h; exact he⟩

theorem FixedArray.append_eq {a b : List (κ × ν)} (h : a.length + b.length ≤ kFixedSize) :
    FixedArray.append a b = some (a ++ b) := if_pos h

theorem FixedArray.copy_eq {a b c : List (κ × ν)} (h : a.length + b.length + c.length ≤ kFixedSize) :
    FixedArray.copy a b c = some (a ++ b ++ c) := by
  have ha : FixedArray.append [] a = some a := append_eq (by simp; omega)
  have hb : FixedArray.append a b = some (a ++ b) := append_eq (by omega)
  have hc : FixedArray.append (a ++ b) c = some (a ++ b ++ c) := append_eq (by simpa using h)
  simp [FixedArray.copy, ha, hb, hc]

variable [TransCmp cmp] [BEq ν]

/-- With room for one entry more no assertion fails. An entry whose value is
the new one stays, and so keeps its key; any other of that key is replaced,
key and value. -/
theorem insertArray_eq (h : Sorted cmp l) (hroom : l.length < kFixedSize) :
    insertArray cmp l k v = some
      (if ((find cmp k l).any fun e => v == e.2) then l else put cmp k v (without cmp k l)) := by
  obtain ⟨a, b, rfl, ha, hidx, hb⟩ := exists_place (k := k) h
  have hna : ∀ e ∈ a, cmp k e.1 ≠ .eq := fun e he hk => by
    have := ha e he
    rw [OrientedCmp.eq_symm hk] at this
    cases this
  have hfind : a.find? (fun e => cmp k e.1 == .eq) = none := by simpa using hna
  rw [List.length_append] at hroom
  simp only [insertArray, hidx, List.take_left, find, List.find?_append, hfind, Option.none_or]
  cases b with
  | nil =>
    have hput : put cmp k v a = a ++ [(k, v)] := by simpa [put] using put_split (r := []) (v := v) ha
    simp only [List.append_nil, List.getElem?_length, Option.filter_none, Option.any_none, List.find?_nil,
      Bool.false_eq_true, if_false, Option.isSome_none, List.drop_length]
    rw [FixedArray.copy_eq (by simp at hroom ⊢; omega), without_self hna, hput, List.append_nil]
  | cons e b =>
    simp only [List.getElem?_append_right (Nat.le_refl _), Nat.sub_self, List.getElem?_cons_zero]
    by_cases he : cmp k e.1 = .eq
    · have hw : without cmp k (a ++ e :: b) = a ++ b := without_split_eq h he
      have hbk : put cmp k v b = (k, v) :: b := by
        cases b with
        | nil => rfl
        | cons e' b =>
          have := OrientedCmp.gt_of_lt (TransCmp.lt_of_eq_of_lt he (h.above e' (by simp)))
          simp [put, this]
      have hdrop : (a ++ e :: b).drop (a.length + 1) = b := by simp
      simp only [Option.filter_some, he, beq_self_eq_true, if_true, Option.any_some, List.find?_cons_of_pos,
        Option.isSome_some, hdrop]
      split
      · rfl
      · rw [hw, put_split ha, hbk, FixedArray.copy_eq (by simp at hroom ⊢; omega), List.append_assoc]
        rfl
    · have hgt : cmp e.1 k = .gt := by
        cases hk : cmp e.1 k with
        | lt => exact absurd hk (hb e b rfl)
        | eq => exact absurd (OrientedCmp.eq_symm hk) he
        | gt => rfl
      have hlt := OrientedCmp.lt_of_gt hgt
      have hnb : b.find? (fun e => cmp k e.1 == .eq) = none := by
        simp only [List.find?_eq_none, beq_iff_eq]
        intro e' he'
        simp [TransCmp.lt_trans hlt (h.above e' he')]
      have hw : without cmp k (a ++ e :: b) = a ++ e :: b := without_self fun e' he' => by
        rcases List.mem_append.1 he' with he' | he'
        · exact hna e' he'
        · rcases List.mem_cons.1 he' with rfl | he'
          · exact he
          · simp [TransCmp.lt_trans hlt (h.above e' he')]
      have hput : put cmp k v (a ++ e :: b) = a ++ (k, v) :: e :: b := by rw [put_split ha, put, hgt]
      simp only [Option.filter_some, hlt, reduceCtorEq, beq_iff_eq, if_false, Option.any_none, Bool.false_eq_true,
        Option.isSome_none, List.drop_left, List.find?_cons_of_neg, hnb, not_false_eq_true]
      rw [FixedArray.copy_eq (by simp at hroom ⊢; omega), hw, hput, List.append_assoc]
      rfl

omit [BEq ν] in
theorem eraseArray_eq (h : Sorted cmp l) (hb : l.length ≤ kFixedSize) : eraseArray cmp l k = some (without cmp k l) := by
  unfold eraseArray
  dsimp only
  split
  · next hpos =>
    rw [List.findIdx_eq_length] at hpos
    rw [without_self fun e he => by simpa using hpos e he]
  · next hpos =>
    have hlt := List.findIdx_lt_length.1 (Nat.lt_of_le_of_ne List.findIdx_le_length hpos)
    obtain ⟨e, hmem, hk⟩ := hlt
    obtain ⟨a, b, rfl⟩ := List.append_of_mem hmem
    have hk : cmp k e.1 = .eq := by simpa using hk
    have hidx : (a ++ e :: b).findIdx (fun e => cmp k e.1 == .eq) = a.length := by
      rw [List.findIdx_append, List.findIdx_cons]
      have : a.findIdx (fun e => cmp k e.1 == .eq) = a.length := by
        rw [List.findIdx_eq_length]
        intro x hx
        have := without_below h (k := k) (by simp [hk])
        simpa using (mem_without.1 (this.symm ▸ hx)).2
      simp [this, hk]
    rw [hidx, without_split_eq h hk]
    split
    · next hle =>
      have : a.length = 0 ∧ b.length = 0 := by simp at hle; omega
      simp [List.length_eq_zero_iff.1 this.1, List.length_eq_zero_iff.1 this.2]
    · have hdrop : (a ++ e :: b).drop (a.length + 1) = b := by simp
      rw [List.length_append, List.length_cons] at hb
      rw [List.take_left, hdrop, FixedArray.append_eq (by simp; omega)]
      exact FixedArray.append_eq (by simp; omega)

end

namespace ArraySortedMap

def empty : ArraySortedMap κ ν cmp := ⟨[], .nil, Nat.zero_le _⟩

def size (m : ArraySortedMap κ ν cmp) : Nat := m.array.length

def find (m : ArraySortedMap κ ν cmp) (k : κ) : Option (κ × ν) := m.array.find? fun e => cmp k e.1 == .eq

def findIndex (m : ArraySortedMap κ ν cmp) (k : κ) : Option Nat := m.array.findIdx? fun e => cmp k e.1 == .eq

variable [TransCmp cmp]

def insert [BEq ν] (m : ArraySortedMap κ ν cmp) (hroom : m.size < kFixedSize) (k : κ) (v : ν) :
    ArraySortedMap κ ν cmp where
  array := (insertArray cmp m.array k v).get (by simp [insertArray_eq m.sorted hroom])
  sorted := by
    simp only [insertArray_eq m.sorted hroom, Option.get_some]
    split
    · exact m.sorted
    · exact put_sorted (without_sorted m.sorted)
  bounded := by
    simp only [insertArray_eq m.sorted hroom, Option.get_some]
    split
    · exact m.bounded
    · calc
        (put cmp k v (without cmp k m.array)).length ≤ (without cmp k m.array).length + 1 := length_put
        _ ≤ m.array.length + 1 := Nat.succ_le_succ (List.length_filter_le ..)
        _ ≤ kFixedSize := hroom

def erase (m : ArraySortedMap κ ν cmp) (k : κ) : ArraySortedMap κ ν cmp where
  array := (eraseArray cmp m.array k).get (by simp [eraseArray_eq m.sorted m.bounded])
  sorted := by simpa [eraseArray_eq m.sorted m.bounded] using without_sorted m.sorted
  bounded := by
    simp only [eraseArray_eq m.sorted m.bounded, Option.get_some]
    exact (List.length_filter_le ..).trans m.bounded

end ArraySortedMap

/-! ## SortedMap -/

inductive SortedMap (κ ν : Type*) (cmp : κ → κ → Ordering) where
  | array (m : ArraySortedMap κ ν cmp)
  | tree (m : TreeSortedMap κ ν cmp)

namespace SortedMap

def empty : SortedMap κ ν cmp := .array .empty

def size : SortedMap κ ν cmp → Nat
  | array m => m.size
  | tree m => m.size

def contains (k : κ) : SortedMap κ ν cmp → Bool
  | array m => (m.find k).isSome
  | tree m => m.root.contains cmp k

def find (k : κ) : SortedMap κ ν cmp → Option (κ × ν)
  | array m => m.find k
  | tree m => m.find k

def findIndex (k : κ) : SortedMap κ ν cmp → Option Nat
  | array m => m.findIndex k
  | tree m => m.root.findIndex cmp k 0

def min? : SortedMap κ ν cmp → Option (κ × ν)
  | array m => m.array.head?
  | tree m => LlrbNode.current m.root.begin

def max? : SortedMap κ ν cmp → Option (κ × ν)
  | array m => m.array.getLast?
  | tree m => m.root.max?

/-- The entries an iteration visits. -/
def entries : SortedMap κ ν cmp → List (κ × ν)
  | array m => m.array
  | tree m => m.entries

section

variable [TransCmp cmp]

/-- A full array becomes a tree before anything is put into it, a new key or not. -/
def insert [BEq ν] (k : κ) (v : ν) : SortedMap κ ν cmp → SortedMap κ ν cmp
  | array m =>
    if h : m.size < kFixedSize then array (m.insert h k v)
    else tree ((TreeSortedMap.create m.array).insert k v)
  | tree m => tree (m.insert k v)

def erase (k : κ) : SortedMap κ ν cmp → SortedMap κ ν cmp
  | array m => array (m.erase k)
  | tree m => if (m.erase k).size = 0 then empty else tree (m.erase k)

end

/-! What every map says of its entries, whichever kind it is. -/

theorem sorted : (m : SortedMap κ ν cmp) → Sorted cmp m.entries
  | array m => m.sorted
  | tree m => m.sorted

@[simp] theorem entries_array (m : ArraySortedMap κ ν cmp) : (array m).entries = m.array := rfl
@[simp] theorem entries_tree (m : TreeSortedMap κ ν cmp) : (tree m).entries = m.entries := rfl
@[simp] theorem entries_empty : (empty : SortedMap κ ν cmp).entries = [] := rfl

theorem size_eq : (m : SortedMap κ ν cmp) → m.size = m.entries.length
  | array _ => rfl
  | tree m => m.size_eq

theorem min?_eq : (m : SortedMap κ ν cmp) → m.min? = m.entries.head?
  | array _ => rfl
  | tree m => by
    obtain ⟨hs, hr⟩ := LlrbNode.begin_spec m.root
    rw [min?, hs.current, hr]
    rfl

theorem max?_eq : (m : SortedMap κ ν cmp) → m.max? = m.entries.getLast?
  | array _ => rfl
  | tree m => LlrbNode.max?_eq m.root

variable [TransCmp cmp] {k : κ} {v : ν}

theorem find_eq : (m : SortedMap κ ν cmp) → m.find k = Entries.find cmp k m.entries
  | array _ => rfl
  | tree m => m.find_eq k

theorem contains_eq : (m : SortedMap κ ν cmp) → m.contains k = (Entries.find cmp k m.entries).isSome
  | array _ => rfl
  | tree m => LlrbNode.contains_eq m.sorted

theorem findIndex_eq : (m : SortedMap κ ν cmp) →
    m.findIndex k = (Entries.find cmp k m.entries).map fun _ => rank cmp k m.entries
  | array m => findIdx?_eq m.sorted
  | tree m => by
    rw [findIndex, LlrbNode.findIndex_eq m.sorted m.sized]
    simp only [Nat.zero_add]
    rfl

theorem entries_erase : (m : SortedMap κ ν cmp) → (m.erase k).entries = without cmp k m.entries
  | array m => by simp [erase, entries, ArraySortedMap.erase, eraseArray_eq m.sorted m.bounded]
  | tree m => by
    have h := m.entries_erase k
    rw [erase]
    split
    · next hsize =>
      rw [TreeSortedMap.size_eq, h, List.length_eq_zero_iff] at hsize
      rw [entries_empty, entries, hsize]
    · exact h

variable [BEq ν]

/-- An array replaces an entry whose value changes, key and value; a tree changes its value. -/
theorem entries_insert : (m : SortedMap κ ν cmp) →
    (m.insert k v).entries = put cmp k v m.entries ∨
      (m.insert k v).entries = put cmp k v (without cmp k m.entries) ∨
      (m.insert k v).entries = m.entries ∧ ∃ e ∈ m.entries, cmp k e.1 = .eq ∧ v == e.2
  | array m => by
    rw [insert]
    split
    · next hroom =>
      simp only [entries, ArraySortedMap.insert, insertArray_eq m.sorted hroom, Option.get_some]
      cases hf : Entries.find cmp k m.array with
      | none => exact .inr (.inl (by simp))
      | some e =>
        by_cases hv : v == e.2
        · exact .inr (.inr ⟨by simp [hv], e, (find_some hf).1, (find_some hf).2, hv⟩)
        · exact .inr (.inl (by simp [hv]))
    · exact .inl (by rw [entries_tree, TreeSortedMap.entries_insert, TreeSortedMap.entries_create m.sorted]; rfl)
  | tree m => .inl (m.entries_insert k v)

theorem get_insert_of_ne {k' : κ} (m : SortedMap κ ν cmp) (hk : cmp k' k ≠ .eq) :
    get cmp k' (m.insert k v).entries = get cmp k' m.entries := by
  rcases m.entries_insert (k := k) (v := v) with h | h | ⟨h, -⟩
  · rw [h, get_put m.sorted, if_neg hk]
  · rw [h, get_put (without_sorted m.sorted), get_without, if_neg hk, if_neg hk]
  · rw [h]

/-- The value inserted, or the one that was there and is equal to it. -/
theorem get_insert_self (m : SortedMap κ ν cmp) :
    get cmp k (m.insert k v).entries = some v ∨
      ∃ w, get cmp k m.entries = some w ∧ v == w ∧ get cmp k (m.insert k v).entries = some w := by
  have hself : cmp k k = .eq := ReflCmp.compare_self
  rcases m.entries_insert (k := k) (v := v) with h | h | ⟨h, e, he, hk, hv⟩
  · exact .inl (by rw [h, get_put m.sorted, if_pos hself])
  · exact .inl (by rw [h, get_put (without_sorted m.sorted), if_pos hself])
  · have hget : get cmp k m.entries = some e.2 := by rw [Entries.get, find_of_mem m.sorted he hk]; rfl
    exact .inr ⟨e.2, hget, hv, by rw [h, hget]⟩

theorem get_insert [LawfulBEq ν] {k' : κ} (m : SortedMap κ ν cmp) :
    get cmp k' (m.insert k v).entries = if cmp k' k = .eq then some v else get cmp k' m.entries := by
  split
  · next hk =>
    rw [get_congr hk]
    rcases m.get_insert_self (k := k) (v := v) with h | ⟨w, -, hv, h⟩
    · exact h
    · rw [h, eq_of_beq hv]
  · next hk => exact m.get_insert_of_ne hk

omit [BEq ν] in
theorem get_erase {k' : κ} (m : SortedMap κ ν cmp) :
    get cmp k' (m.erase k).entries = if cmp k' k = .eq then none else get cmp k' m.entries := by
  rw [entries_erase, get_without]

/-- A key that is not there yet. -/
theorem entries_insert_new (m : SortedMap κ ν cmp) (h : ∀ e ∈ m.entries, cmp k e.1 ≠ .eq) :
    (m.insert k v).entries = put cmp k v m.entries := by
  rcases m.entries_insert (k := k) (v := v) with h' | h' | ⟨-, e, he, hk, -⟩
  · exact h'
  · rw [h', without_self h]
  · exact absurd hk (h e he)

end SortedMap

/-! ## Runs -/

/-- A change of a map. -/
inductive Change (κ ν : Type*) where
  | insert (k : κ) (v : ν)
  | erase (k : κ)

namespace Change

/-- On the entries. -/
def onEntries (cmp : κ → κ → Ordering) (l : List (κ × ν)) : Change κ ν → List (κ × ν)
  | insert k v => put cmp k v l
  | erase k => without cmp k l

def onNode (cmp : κ → κ → Ordering) (t : LlrbNode κ ν) : Change κ ν → LlrbNode κ ν
  | insert k v => t.insert cmp k v
  | erase k => t.erase cmp k

variable [TransCmp cmp] [BEq ν]

end Change

/-- Whatever is inserted into a tree and erased from it, in whatever order, its
entries are those the changes leave in a plain list, it is balanced under a
black root, its sizes are right, and no way down it is longer than twice the
logarithm of its size. -/
theorem tree_run [TransCmp cmp] (changes : List (Change κ ν)) :
    let t := changes.foldl (Change.onNode cmp) .empty
    t.toList = changes.foldl (Change.onEntries cmp) [] ∧ Sorted cmp t.toList ∧ (∃ n, t.Balanced .black n) ∧ t.Sized ∧
      t.height ≤ 2 * Nat.log 2 (t.size + 1) := by
  suffices h : ∀ t : LlrbNode κ ν, Sorted cmp t.toList → (∃ n, t.Balanced .black n) → t.Sized →
      (changes.foldl (Change.onNode cmp) t).toList = changes.foldl (Change.onEntries cmp) t.toList ∧
        Sorted cmp (changes.foldl (Change.onNode cmp) t).toList ∧
        (∃ n, (changes.foldl (Change.onNode cmp) t).Balanced .black n) ∧ (changes.foldl (Change.onNode cmp) t).Sized by
    obtain ⟨hl, hs, ⟨n, hb⟩, hz⟩ := h .empty .nil ⟨0, .empty⟩ trivial
    exact ⟨hl, hs, ⟨n, hb⟩, hz, hz.size_eq ▸ hb.height_log⟩
  induction changes with
  | nil => exact fun t hs hb hz => ⟨rfl, hs, hb, hz⟩
  | cons change changes ih =>
    rintro t hs ⟨n, hb⟩ hz
    cases change with
    | insert k v =>
      have hl : (t.insert cmp k v).toList = put cmp k v t.toList := LlrbNode.toList_insert hs
      have := ih (t.insert cmp k v) (hl ▸ put_sorted hs) (LlrbNode.insert_balanced hb) hz.innerInsert.fixRootColor
      rwa [hl] at this
    | erase k =>
      obtain ⟨hb', hl⟩ : (∃ m, (t.erase cmp k).Balanced .black m) ∧ (t.erase cmp k).toList = without cmp k t.toList :=
        LlrbNode.erase_spec hb hs
      have := ih (t.erase cmp k) (hl ▸ without_sorted hs) hb' hz.innerErase.fixRootColor
      rwa [hl] at this

theorem tree_run_erased :
    ([Change.insert 3 (), .insert 1 (), .insert 2 (), .erase 1].foldl (Change.onNode compare) .empty).toList =
      [(2, ()), (3, ())] :=
  (tree_run [Change.insert 3 (), .insert 1 (), .insert 2 (), .erase 1]).1.trans (by decide)

/-- What is held where `v` was inserted last: `v`, or a value it is equal to, that was held there. -/
def Stands [BEq ν] (v w : ν) : Prop := v = w ∨ v == w

section

variable [TransCmp cmp] [BEq ν]

end

end Immutable
