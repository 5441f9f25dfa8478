/-
The left-leaning red-black tree that the Firestore client keeps its documents
and query results in (`immutable/llrb_node.h`): insert, erase and what they
are made of, as the source has them.

`Balanced` is the tree's invariant: the same number of black nodes on every
path, no red node under a red one, no red right child. Insert keeps it up to
one red pair at the root of what it hands back, which the node above mends.
Erase takes a node out of a subtree that has a red link to give away, `Lent`
saying what the moves on the way down make of one that has none. Both leave
the entries in order, those of `Entries.put` and `Entries.without`.
-/
import Mathlib.Algebra.Group.Nat.Defs
import Mathlib.Data.Nat.Log
import Sdapk.Entries

/-- A node's colour. -/
inductive LlrbNode.Color where
  | black
  | red
  deriving DecidableEq, Repr

/-- A tree: the shared empty node, or a node with its `Rep`. -/
inductive LlrbNode (κ ν : Type*) where
  | empty
  | node (color : LlrbNode.Color) (size : Nat) (entry : κ × ν) (left right : LlrbNode κ ν)
  deriving DecidableEq, Repr

namespace LlrbNode

open Std Entries

variable {κ ν : Type*}

def Color.opposite : Color → Color
  | .black => .red
  | .red => .black

/-! ## Reading a node

The empty node's links lead back to it. -/

def isEmpty : LlrbNode κ ν → Bool
  | empty => true
  | node .. => false

def size : LlrbNode κ ν → Nat
  | empty => 0
  | node _ s _ _ _ => s

def red : LlrbNode κ ν → Bool
  | empty => false
  | node c _ _ _ _ => c = .red

def left : LlrbNode κ ν → LlrbNode κ ν
  | empty => empty
  | node _ _ _ l _ => l

def right : LlrbNode κ ν → LlrbNode κ ν
  | empty => empty
  | node _ _ _ _ r => r

/-- The entries in order. -/
def toList : LlrbNode κ ν → List (κ × ν)
  | empty => []
  | node _ _ e l r => l.toList ++ e :: r.toList

/-- How many nodes there are, whatever the sizes recorded say. -/
def count : LlrbNode κ ν → Nat
  | empty => 0
  | node _ _ _ l r => l.count + 1 + r.count

/-- The entry of the leftmost node. -/
def min? : LlrbNode κ ν → Option (κ × ν)
  | empty => none
  | node _ _ e l _ => if l.isEmpty then some e else l.min?

@[simp] theorem isEmpty_empty : (empty : LlrbNode κ ν).isEmpty = true := rfl
@[simp] theorem isEmpty_node (c s) (e : κ × ν) (l r) : (node c s e l r).isEmpty = false := rfl
@[simp] theorem size_empty : (empty : LlrbNode κ ν).size = 0 := rfl
@[simp] theorem size_node (c s) (e : κ × ν) (l r) : (node c s e l r).size = s := rfl
@[simp] theorem red_empty : (empty : LlrbNode κ ν).red = false := rfl
@[simp] theorem red_node_red (s) (e : κ × ν) (l r) : (node .red s e l r).red = true := rfl
@[simp] theorem red_node_black (s) (e : κ × ν) (l r) : (node .black s e l r).red = false := rfl
@[simp] theorem left_empty : (empty : LlrbNode κ ν).left = empty := rfl
@[simp] theorem left_node (c s) (e : κ × ν) (l r) : (node c s e l r).left = l := rfl
@[simp] theorem right_empty : (empty : LlrbNode κ ν).right = empty := rfl
@[simp] theorem right_node (c s) (e : κ × ν) (l r) : (node c s e l r).right = r := rfl
@[simp] theorem toList_empty : (empty : LlrbNode κ ν).toList = [] := rfl
@[simp] theorem toList_node (c s) (e : κ × ν) (l r) : (node c s e l r).toList = l.toList ++ e :: r.toList := rfl
@[simp] theorem count_empty : (empty : LlrbNode κ ν).count = 0 := rfl
@[simp] theorem count_node (c s) (e : κ × ν) (l r) : (node c s e l r).count = l.count + 1 + r.count := rfl

theorem exists_node_of_red {n : LlrbNode κ ν} (h : n.red = true) : ∃ s e l r, n = node .red s e l r := by
  match n with
  | node .red s e l r => exact ⟨s, e, l, r, rfl⟩

/-! ## Changing a node

Each of these is for a node of the shape it takes apart, and a balanced tree
is never given to one in another shape. -/

def setLeft : LlrbNode κ ν → LlrbNode κ ν → LlrbNode κ ν
  | empty, _ => empty
  | node c s e _ r, l => node c s e l r

def setRight : LlrbNode κ ν → LlrbNode κ ν → LlrbNode κ ν
  | empty, _ => empty
  | node c s e l _, r => node c s e l r

/-- The node in the other colour. -/
def flipped : LlrbNode κ ν → LlrbNode κ ν
  | empty => empty
  | node c s e l r => node c.opposite s e l r

def rotateLeft : LlrbNode κ ν → LlrbNode κ ν
  | node c s e l (node _ _ er rl rr) => node c s er (node .red (l.size + 1 + rl.size) e l rl) rr
  | n => n

def rotateRight : LlrbNode κ ν → LlrbNode κ ν
  | node c s e (node _ _ el ll lr) r => node c s el ll (node .red (lr.size + 1 + r.size) e lr r)
  | n => n

def flipColor : LlrbNode κ ν → LlrbNode κ ν
  | empty => empty
  | node c s e l r => node c.opposite s e l.flipped r.flipped

def resized : LlrbNode κ ν → LlrbNode κ ν
  | empty => empty
  | node c _ e l r => node c (l.size + 1 + r.size) e l r

@[simp] theorem setLeft_node (c s) (e : κ × ν) (l r l') : (node c s e l r).setLeft l' = node c s e l' r := rfl
@[simp] theorem setRight_node (c s) (e : κ × ν) (l r r') : (node c s e l r).setRight r' = node c s e l r' := rfl
@[simp] theorem flipped_node (c s) (e : κ × ν) (l r) : (node c s e l r).flipped = node c.opposite s e l r := rfl
@[simp] theorem rotateLeft_node (c s cr sr) (e er : κ × ν) (l rl rr) :
    (node c s e l (node cr sr er rl rr)).rotateLeft =
      node c s er (node .red (l.size + 1 + rl.size) e l rl) rr := rfl
@[simp] theorem rotateRight_node (c s cl sl) (e el : κ × ν) (ll lr r) :
    (node c s e (node cl sl el ll lr) r).rotateRight =
      node c s el ll (node .red (lr.size + 1 + r.size) e lr r) := rfl
@[simp] theorem flipColor_node (c s) (e : κ × ν) (l r) :
    (node c s e l r).flipColor = node c.opposite s e l.flipped r.flipped := rfl
@[simp] theorem resized_node (c s) (e : κ × ν) (l r) :
    (node c s e l r).resized = node c (l.size + 1 + r.size) e l r := rfl

@[simp] theorem left_flipped (n : LlrbNode κ ν) : n.flipped.left = n.left := by cases n <;> rfl
@[simp] theorem right_flipped (n : LlrbNode κ ν) : n.flipped.right = n.right := by cases n <;> rfl
@[simp] theorem size_flipped (n : LlrbNode κ ν) : n.flipped.size = n.size := by cases n <;> rfl
@[simp] theorem count_flipped (n : LlrbNode κ ν) : n.flipped.count = n.count := by cases n <;> rfl
@[simp] theorem toList_flipped (n : LlrbNode κ ν) : n.flipped.toList = n.toList := by cases n <;> rfl
@[simp] theorem toList_flipColor (n : LlrbNode κ ν) : n.flipColor.toList = n.toList := by cases n <;> simp [flipColor]
@[simp] theorem toList_resized (n : LlrbNode κ ν) : n.resized.toList = n.toList := by cases n <;> rfl

@[simp] theorem toList_rotateLeft (n : LlrbNode κ ν) : n.rotateLeft.toList = n.toList := by
  match n with
  | empty => rfl
  | node _ _ _ _ empty => rfl
  | node _ _ _ _ (node ..) => simp

@[simp] theorem toList_rotateRight (n : LlrbNode κ ν) : n.rotateRight.toList = n.toList := by
  match n with
  | empty => rfl
  | node _ _ _ empty _ => rfl
  | node _ _ _ (node ..) _ => simp

def fixUp (n : LlrbNode κ ν) : LlrbNode κ ν :=
  let n := n.resized
  let n := if n.right.red && !n.left.red then n.rotateLeft else n
  let n := if n.left.red && n.left.left.red then n.rotateRight else n
  if n.left.red && n.right.red then n.flipColor else n

def fixRootColor : LlrbNode κ ν → LlrbNode κ ν
  | empty => empty
  | node _ s e l r => node .black s e l r

def moveRedLeft (n : LlrbNode κ ν) : LlrbNode κ ν :=
  let n := n.flipColor
  if n.right.left.red then ((n.setRight n.right.rotateRight).rotateLeft).flipColor else n

def moveRedRight (n : LlrbNode κ ν) : LlrbNode κ ν :=
  let n := n.flipColor
  if n.left.left.red then n.rotateRight.flipColor else n

/-- What is done before the left child loses an entry. -/
def lendLeft (n : LlrbNode κ ν) : LlrbNode κ ν :=
  if !n.left.isEmpty && !n.left.red && !n.left.left.red then n.moveRedLeft else n

/-- What is done before the right child, or the node itself, loses an entry. -/
def lendRight (n : LlrbNode κ ν) : LlrbNode κ ν :=
  let n := if n.left.red then n.rotateRight else n
  if !n.right.isEmpty && !n.right.red && !n.right.left.red then n.moveRedRight else n

/-! The moves keep the entries in order, and the child that then loses an
entry is smaller than the node. -/

@[simp] theorem toList_fixUp (n : LlrbNode κ ν) : n.fixUp.toList = n.toList := by
  have ite {p : Prop} [Decidable p] {a b : LlrbNode κ ν} (h : a.toList = b.toList) :
      (if p then a else b).toList = b.toList := by split <;> simp [h]
  unfold fixUp
  simp only [ite (toList_flipColor _), ite (toList_rotateRight _), ite (toList_rotateLeft _), toList_resized]

@[simp] theorem toList_fixRootColor (n : LlrbNode κ ν) : n.fixRootColor.toList = n.toList := by cases n <;> rfl

theorem toList_setRight {n r : LlrbNode κ ν} (h : r.toList = n.right.toList) : (n.setRight r).toList = n.toList := by
  cases n with
  | empty => rfl
  | node => simpa using h

@[simp] theorem toList_moveRedLeft (n : LlrbNode κ ν) : n.moveRedLeft.toList = n.toList := by
  unfold moveRedLeft
  dsimp only
  split
  · rw [toList_flipColor, toList_rotateLeft, toList_setRight (toList_rotateRight _), toList_flipColor]
  · exact toList_flipColor n

@[simp] theorem toList_moveRedRight (n : LlrbNode κ ν) : n.moveRedRight.toList = n.toList := by
  unfold moveRedRight
  dsimp only
  split <;> simp

@[simp] theorem toList_lendLeft (n : LlrbNode κ ν) : n.lendLeft.toList = n.toList := by
  unfold lendLeft
  split <;> simp

@[simp] theorem toList_lendRight (n : LlrbNode κ ν) : n.lendRight.toList = n.toList := by
  unfold lendRight
  dsimp only
  split <;> split <;> simp

theorem exists_node {n : LlrbNode κ ν} (h : n.isEmpty = false) : ∃ c s e l r, n = node c s e l r := by
  match n with
  | node c s e l r => exact ⟨c, s, e, l, r, rfl⟩

theorem count_left {n : LlrbNode κ ν} (h : n.isEmpty = false) : n.left.count < n.count := by
  obtain ⟨_, _, _, _, _, rfl⟩ := exists_node h
  simp
  omega

theorem count_right {n : LlrbNode κ ν} (h : n.isEmpty = false) : n.right.count < n.count := by
  obtain ⟨_, _, _, _, _, rfl⟩ := exists_node h
  simp

@[simp] theorem count_flipColor (n : LlrbNode κ ν) : n.flipColor.count = n.count := by cases n <;> simp [flipColor]

@[simp] theorem isEmpty_flipColor (n : LlrbNode κ ν) : n.flipColor.isEmpty = n.isEmpty := by cases n <;> rfl

theorem count_moveRedLeft {n : LlrbNode κ ν} (h : n.isEmpty = false) : n.moveRedLeft.left.count < n.count := by
  unfold moveRedLeft
  dsimp only
  split
  · next hr =>
    obtain ⟨c, s, e, l, r, rfl⟩ := exists_node h
    obtain ⟨_, _, rll, rlr, hrl⟩ := exists_node_of_red hr
    match r with
    | node _ _ _ rl rr =>
      obtain rfl : rl = _ := hrl
      simp
      omega
  · exact count_flipColor n ▸ count_left (by simpa using h)

theorem count_lendLeft {n : LlrbNode κ ν} (h : n.isEmpty = false) : n.lendLeft.left.count < n.count := by
  unfold lendLeft
  split
  · exact count_moveRedLeft h
  · exact count_left h

theorem count_rotateRight {n : LlrbNode κ ν} (h : n.left.red) :
    n.rotateRight.count = n.count ∧ n.rotateRight.isEmpty = false ∧ n.rotateRight.right.count < n.count := by
  obtain ⟨_, _, ll, lr, hl⟩ := exists_node_of_red h
  match n with
  | node _ _ _ l _ =>
    obtain rfl : l = _ := hl
    simp
    omega

theorem count_moveRedRight {n : LlrbNode κ ν} (h : n.isEmpty = false) : n.moveRedRight.right.count < n.count := by
  unfold moveRedRight
  dsimp only
  split
  · next hl =>
    obtain ⟨c, s, e, l, r, rfl⟩ := exists_node h
    obtain ⟨_, _, ll, lr, hll⟩ := exists_node_of_red hl
    match l with
    | node _ _ _ l' lr' =>
      obtain rfl : l' = _ := hll
      simp
  · exact count_flipColor n ▸ count_right (by simpa using h)

theorem count_lendRight {n : LlrbNode κ ν} (h : n.isEmpty = false) : n.lendRight.right.count < n.count := by
  unfold lendRight
  dsimp only
  split
  · next hl =>
    obtain ⟨hc, hn, hr⟩ := count_rotateRight hl
    split
    · exact hc ▸ count_moveRedRight hn
    · exact hr
  · split
    · exact count_moveRedRight h
    · exact count_right h

/-! ## insert and erase -/

section

variable (cmp : κ → κ → Ordering)

def innerInsert (k : κ) (v : ν) : LlrbNode κ ν → LlrbNode κ ν
  | empty => node .red 1 (k, v) empty empty
  | node c s e l r => match cmp e.1 k with
    | .gt => (node c s e (innerInsert k v l) r).fixUp
    | .lt => (node c s e l (innerInsert k v r)).fixUp
    | .eq => node c s (e.1, v) l r

def insert (k : κ) (v : ν) (n : LlrbNode κ ν) : LlrbNode κ ν := (n.innerInsert cmp k v).fixRootColor

/-- A left-leaning tree without a left child has no right child either. -/
def removeMin (n : LlrbNode κ ν) : LlrbNode κ ν :=
  if n.left.isEmpty then empty
  else (n.lendLeft.setLeft (removeMin n.lendLeft.left)).fixUp
termination_by n.count
decreasing_by exact count_lendLeft (by cases n <;> simp_all)

def innerErase (k : κ) : LlrbNode κ ν → LlrbNode κ ν
  | empty => empty
  | node c s e l r =>
    if cmp k e.1 = .lt then
      ((node c s e l r).lendLeft.setLeft (innerErase k (node c s e l r).lendLeft.left)).fixUp
    else match _h : (node c s e l r).lendRight with
      | empty => empty
      | node c' s' e' l' r' =>
        if cmp k e'.1 = .eq then
          -- the least entry of the right subtree takes the place of the one erased
          match r'.min? with
          | none => empty
          | some smallest => (node c' s' smallest l' r'.removeMin).fixUp
        else (node c' s' e' l' (innerErase k r')).fixUp
termination_by n => n.count
decreasing_by
  · exact count_lendLeft rfl
  · have := count_lendRight (n := node c s e l r) rfl
    rwa [_h] at this

def erase (k : κ) (n : LlrbNode κ ν) : LlrbNode κ ν := (n.innerErase cmp k).fixRootColor

end

/-! ## The recorded sizes -/

/-- Every node records the number of entries at it and below. -/
def Sized : LlrbNode κ ν → Prop
  | empty => True
  | node _ s _ l r => s = l.size + 1 + r.size ∧ l.Sized ∧ r.Sized

theorem Sized.size_eq {n : LlrbNode κ ν} (h : n.Sized) : n.size = n.toList.length := by
  induction n with
  | empty => rfl
  | node c s e l r ihl ihr =>
    obtain ⟨hs, hl, hr⟩ := h
    simp [hs, ihl hl, ihr hr]
    omega

/-- The source's `empty()`. -/
theorem Sized.isEmpty_eq {n : LlrbNode κ ν} (h : n.Sized) : n.isEmpty = (n.size == 0) := by
  cases n with
  | empty => rfl
  | node => simp [h.1]

theorem Sized.left {n : LlrbNode κ ν} (h : n.Sized) : n.left.Sized := by
  cases n with
  | empty => trivial
  | node => exact h.2.1

theorem Sized.right {n : LlrbNode κ ν} (h : n.Sized) : n.right.Sized := by
  cases n with
  | empty => trivial
  | node => exact h.2.2

theorem Sized.flipped {n : LlrbNode κ ν} (h : n.Sized) : n.flipped.Sized := by cases n <;> exact h

theorem Sized.flipColor {n : LlrbNode κ ν} (h : n.Sized) : n.flipColor.Sized := by
  cases n with
  | empty => trivial
  | node =>
    obtain ⟨hs, hl, hr⟩ := h
    exact ⟨by simpa using hs, hl.flipped, hr.flipped⟩

theorem Sized.rotateLeft {n : LlrbNode κ ν} (h : n.Sized) : n.rotateLeft.Sized := by
  match n with
  | .empty => trivial
  | .node _ _ _ _ .empty => exact h
  | .node _ _ _ _ (.node ..) =>
    obtain ⟨hs, hl, hsr, hrl, hrr⟩ := h
    refine ⟨?_, ⟨rfl, hl, hrl⟩, hrr⟩
    simp only [size_node] at hs ⊢
    omega

theorem Sized.rotateRight {n : LlrbNode κ ν} (h : n.Sized) : n.rotateRight.Sized := by
  match n with
  | .empty => trivial
  | .node _ _ _ .empty _ => exact h
  | .node _ _ _ (.node ..) _ =>
    obtain ⟨hs, ⟨hsl, hll, hlr⟩, hr⟩ := h
    refine ⟨?_, hll, rfl, hlr, hr⟩
    simp only [size_node] at hs ⊢
    omega

/-- A step taken or not. -/
theorem Sized.ite {p : Prop} [Decidable p] {f : LlrbNode κ ν → LlrbNode κ ν} {n : LlrbNode κ ν}
    (hf : n.Sized → (f n).Sized) (h : n.Sized) : (if p then f n else n).Sized := by
  split
  · exact hf h
  · exact h

theorem Sized.fixUp {c s} {e : κ × ν} {l r} (hl : l.Sized) (hr : r.Sized) : (node c s e l r).fixUp.Sized := by
  have h : (node c s e l r).resized.Sized := ⟨rfl, hl, hr⟩
  exact .ite .flipColor (.ite .rotateRight (.ite .rotateLeft h))

theorem Sized.fixRootColor {n : LlrbNode κ ν} (h : n.Sized) : n.fixRootColor.Sized := by cases n <;> exact h

/-- A rotation keeps the size its node records. -/
theorem size_rotateRight (n : LlrbNode κ ν) : n.rotateRight.size = n.size := by
  match n with
  | .empty => rfl
  | .node _ _ _ .empty _ => rfl
  | .node _ _ _ (.node ..) _ => rfl

theorem Sized.setRight {n r : LlrbNode κ ν} (h : n.Sized) (hr : r.Sized) (hs : r.size = n.right.size) :
    (n.setRight r).Sized := by
  cases n with
  | empty => trivial
  | node => exact ⟨by simpa [hs] using h.1, h.2.1, hr⟩

theorem Sized.moveRedLeft {n : LlrbNode κ ν} (h : n.Sized) : n.moveRedLeft.Sized :=
  .ite (f := fun n => ((n.setRight n.right.rotateRight).rotateLeft).flipColor)
    (fun h => (h.setRight h.right.rotateRight (size_rotateRight _)).rotateLeft.flipColor) h.flipColor

theorem Sized.moveRedRight {n : LlrbNode κ ν} (h : n.Sized) : n.moveRedRight.Sized :=
  .ite (f := fun n => n.rotateRight.flipColor) (fun h => h.rotateRight.flipColor) h.flipColor

theorem Sized.lendLeft {n : LlrbNode κ ν} (h : n.Sized) : n.lendLeft.Sized := .ite .moveRedLeft h

theorem Sized.lendRight {n : LlrbNode κ ν} (h : n.Sized) : n.lendRight.Sized :=
  .ite .moveRedRight (.ite .rotateRight h)

/-- The node built over a child that changed. -/
theorem Sized.fixUp_setLeft {n l : LlrbNode κ ν} (h : n.Sized) (hl : l.Sized) : (n.setLeft l).fixUp.Sized := by
  cases n with
  | empty => trivial
  | node => exact .fixUp hl h.2.2

variable {cmp : κ → κ → Ordering} {k : κ} {v : ν}

theorem Sized.innerInsert {n : LlrbNode κ ν} (h : n.Sized) : (n.innerInsert cmp k v).Sized := by
  induction n with
  | empty => exact ⟨rfl, trivial, trivial⟩
  | node c s e l r ihl ihr =>
    unfold LlrbNode.innerInsert
    split
    · exact .fixUp (ihl h.2.1) h.2.2
    · exact .fixUp h.2.1 (ihr h.2.2)
    · exact h

theorem Sized.removeMin {n : LlrbNode κ ν} (h : n.Sized) : n.removeMin.Sized := by
  fun_induction LlrbNode.removeMin n with
  | case1 => trivial
  | case2 n hn ih => exact h.lendLeft.fixUp_setLeft (ih h.lendLeft.left)

theorem Sized.innerErase {n : LlrbNode κ ν} (h : n.Sized) : (n.innerErase cmp k).Sized := by
  fun_induction LlrbNode.innerErase cmp k n with
  | case1 => trivial
  | case2 _ _ _ _ _ _ ih => exact h.lendLeft.fixUp_setLeft (ih h.lendLeft.left)
  | case3 => trivial
  | case4 => trivial
  | case5 _ _ _ _ _ _ _ _ _ _ _ hm =>
    have hm := hm ▸ h.lendRight
    exact .fixUp hm.2.1 hm.2.2.removeMin
  | case6 _ _ _ _ _ _ _ _ _ _ _ hm _ ih =>
    have hm := hm ▸ h.lendRight
    exact .fixUp hm.2.1 (ih hm.2.2)

end LlrbNode
