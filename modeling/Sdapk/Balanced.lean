/-
Insert and erase keep a left-leaning red-black tree balanced and its entries
in order, whatever is inserted and erased.

`Balanced t c n`: `t` has a root of colour `c` and `n` black nodes on every
path down, no red node has a red child, no right child is red. Insert is the
easy half (`innerInsert_balanced`). For erase the subtree gone down into must
have a red link to give away (`Spare`), for then it keeps its black height
without the entry; `Lent` says how a node gets a child that has one, by the
moves of `lendLeft` and `lendRight`, and what colour the node is left with.
-/
import Sdapk.LlrbNode

namespace LlrbNode

open Std Entries

variable {κ ν : Type*}

inductive Balanced : LlrbNode κ ν → Color → Nat → Prop
  | empty : Balanced .empty .black 0
  | red {s : Nat} {e : κ × ν} {l r : LlrbNode κ ν} {n : Nat} :
    Balanced l .black n → Balanced r .black n → Balanced (.node .red s e l r) .red n
  | black {s : Nat} {e : κ × ν} {l r : LlrbNode κ ν} {c : Color} {n : Nat} :
    Balanced l c n → Balanced r .black n → Balanced (.node .black s e l r) .black (n + 1)

variable {t l r : LlrbNode κ ν} {c cl cr : Color} {n m s : Nat} {e : κ × ν}

theorem Balanced.red_eq (h : Balanced t c n) : t.red = decide (c = .red) := by cases h <;> rfl

theorem Balanced.black_eq (h : Balanced t .black n) : t.red = false := by simp [h.red_eq]

/-- The other colour takes or gives one black node. -/
theorem Balanced.flipped (h : Balanced t .red n) : Balanced t.flipped .black (n + 1) := by
  cases h with
  | red hl hr => exact .black hl hr

/-! ## The height -/

def height : LlrbNode κ ν → Nat
  | .empty => 0
  | .node _ _ _ l r => max l.height r.height + 1

theorem Balanced.height_le (h : Balanced t c n) : t.height ≤ 2 * n + if c = .red then 1 else 0 := by
  induction h with
  | empty => simp [height]
  | red _ _ ihl ihr => simp at ihl ihr ⊢; simp [height]; omega
  | @black _ _ _ _ c _ _ _ ihl ihr =>
    have : (if c = Color.red then 1 else 0) ≤ 1 := by split <;> omega
    simp at ihr ⊢
    simp [height]
    omega

theorem Balanced.pow_le (h : Balanced t c n) : 2 ^ n ≤ t.toList.length + 1 := by
  induction h with
  | empty => simp
  | red _ _ ihl ihr => simp; omega
  | black _ _ ihl ihr => simp [Nat.pow_succ]; omega

/-- No way down the tree is longer than twice the logarithm of its size. -/
theorem Balanced.height_log (h : Balanced t .black n) : t.height ≤ 2 * Nat.log 2 (t.toList.length + 1) := by
  have hn := Nat.le_log_of_pow_le (by omega) h.pow_le
  have := h.height_le
  simp at this
  omega

/-! ## fixUp -/

/-- No red link leans right and no two are in a row: only the size is set. -/
theorem fixUp_resized (hr : r.red = false) (hl : l.red = true → l.left.red = false) :
    (node c s e l r).fixUp = node c (l.size + 1 + r.size) e l r := by
  by_cases h : l.red = true <;> simp_all [fixUp]

/-- A red link that leans right. -/
theorem fixUp_right {sr : Nat} {er : κ × ν} {rl rr : LlrbNode κ ν} (hl : l.red = false) (hr : rr.red = false) :
    (node c s e l (node .red sr er rl rr)).fixUp =
      node c (l.size + 1 + sr) er (node .red (l.size + 1 + rl.size) e l rl) rr := by
  simp [fixUp, hl, hr]

/-- Two red children: the node takes their colour. -/
theorem fixUp_both (hl : Balanced l .red n) (hr : Balanced r .red n) :
    (node c s e l r).fixUp = node c.opposite (l.size + 1 + r.size) e l.flipped r.flipped := by
  cases hl with
  | red hll =>
    cases hr with
    | red => simp [fixUp, hll.black_eq]

/-- At most one red child: it becomes the left one. -/
theorem fixUp_lean (hl : Balanced l cl n) (hr : Balanced r cr n) (h : cl = .black ∨ cr = .black) :
    ∃ s' e' l' r' c', (node c s e l r).fixUp = node c s' e' l' r' ∧ Balanced l' c' n ∧ Balanced r' .black n ∧
      (cl = .black → cr = .black → c' = .black) := by
  cases hr with
  | red hrl hrr =>
    obtain rfl : cl = .black := by simpa using h
    exact ⟨_, _, _, _, _, fixUp_right hl.black_eq hrr.black_eq, .red hl hrl, hrr, by simp⟩
  | empty =>
    refine ⟨_, _, _, _, _, fixUp_resized rfl fun hred => ?_, hl, .empty, fun h _ => h⟩
    cases hl with
    | empty => rfl
    | red hll => exact hll.black_eq
  | black hrl hrr =>
    refine ⟨_, _, _, _, _, fixUp_resized rfl fun hred => ?_, hl, .black hrl hrr, fun h _ => h⟩
    cases hl with
    | red hll => exact hll.black_eq
    | black => simp at hred

theorem fixUp_red (hl : Balanced l .black n) (hr : Balanced r .black n) : Balanced (node .red s e l r).fixUp .red n := by
  obtain ⟨_, _, _, _, _, h, hl, hr, hc⟩ := fixUp_lean (c := .red) (s := s) (e := e) hl hr (.inl rfl)
  obtain rfl := hc rfl rfl
  exact h ▸ .red hl hr

theorem fixUp_black (hl : Balanced l cl n) (hr : Balanced r cr n) (h : cl = .black ∨ cr = .black) :
    Balanced (node .black s e l r).fixUp .black (n + 1) := by
  obtain ⟨_, _, _, _, _, h, hl, hr, -⟩ := fixUp_lean (c := .black) (s := s) (e := e) hl hr h
  exact h ▸ .black hl hr

/-- A black node over any two children, with its black height. -/
theorem fixUp_any (hl : Balanced l cl n) (hr : Balanced r cr n) :
    ∃ c, Balanced (node .black s e l r).fixUp c (n + 1) := by
  by_cases h : cl = .black ∨ cr = .black
  · exact ⟨_, fixUp_black hl hr h⟩
  · obtain ⟨rfl, rfl⟩ : cl = .red ∧ cr = .red := by cases cl <;> cases cr <;> simp_all
    rw [fixUp_both hl hr]
    exact ⟨_, .red hl.flipped hr.flipped⟩

/-- A red root over any two children, once it is black again. -/
theorem fixUp_root (hl : Balanced l cl n) (hr : Balanced r cr n) :
    ∃ m, Balanced (node .red s e l r).fixUp.fixRootColor .black m := by
  by_cases h : cl = .black ∨ cr = .black
  · obtain ⟨_, _, _, _, _, h, hl, hr, -⟩ := fixUp_lean (c := .red) (s := s) (e := e) hl hr h
    rw [h]
    exact ⟨_, .black hl hr⟩
  · obtain ⟨rfl, rfl⟩ : cl = .red ∧ cr = .red := by cases cl <;> cases cr <;> simp_all
    rw [fixUp_both hl hr]
    exact ⟨_, .black hl.flipped hr.flipped⟩

/-- A red left child with a red left child: the node takes the colour of both. -/
theorem fixUp_redred {s' : Nat} {e' : κ × ν} {lr : LlrbNode κ ν} (hll : Balanced l .red n)
    (hlr : Balanced lr .black n) (hr : Balanced r .black n) :
    ∃ c, Balanced (node .black s e (node .red s' e' l lr) r).fixUp c (n + 1) := by
  cases hll with
  | red ha hb =>
    refine ⟨.red, ?_⟩
    simp only [fixUp, resized_node, right_node, left_node, hr.black_eq, red_node_red, Bool.false_and, Bool.false_eq_true,
      if_false, Bool.and_self, if_true, rotateRight_node, flipColor_node, flipped_node]
    exact .red (.black ha hb) (.black hlr hr)

/-! ## insert -/

variable {cmp : κ → κ → Ordering} {k : κ} {v : ν}

/-- What `innerInsert` makes of a balanced tree: a red one may end in two red
nodes in a row. -/
def Grown (t : LlrbNode κ ν) (n : Nat) : Color → Prop
  | .black => ∃ c, Balanced t c n
  | .red => ∃ s e l r c, t = node .red s e l r ∧ Balanced l c n ∧ Balanced r .black n

theorem innerInsert_balanced (h : Balanced t c n) : Grown (t.innerInsert cmp k v) n c := by
  induction h with
  | empty => exact ⟨_, .red .empty .empty⟩
  | red hl hr ihl ihr =>
    unfold innerInsert
    split
    · obtain ⟨_, hl'⟩ := ihl
      obtain ⟨_, _, _, _, _, h, hl', hr', -⟩ := fixUp_lean hl' hr (.inr rfl)
      exact ⟨_, _, _, _, _, h, hl', hr'⟩
    · obtain ⟨_, hr'⟩ := ihr
      obtain ⟨_, _, _, _, _, h, hl', hr', -⟩ := fixUp_lean hl hr' (.inl rfl)
      exact ⟨_, _, _, _, _, h, hl', hr'⟩
    · exact ⟨_, _, _, _, _, rfl, hl, hr⟩
  | @black _ _ _ _ c _ hl hr ihl ihr =>
    unfold innerInsert
    split
    · cases c with
      | black =>
        obtain ⟨_, hl'⟩ := ihl
        exact fixUp_any hl' hr
      | red =>
        obtain ⟨_, _, _, _, cll, h, hll, hlr⟩ := ihl
        rw [h]
        cases cll with
        | black => exact fixUp_any (.red hll hlr) hr
        | red => exact fixUp_redred hll hlr hr
    · obtain ⟨_, hr'⟩ := ihr
      exact fixUp_any hl hr'
    · exact ⟨_, .black hl hr⟩

theorem Balanced.fixRootColor (h : Balanced t c n) : ∃ m, Balanced t.fixRootColor .black m := by
  cases h with
  | empty => exact ⟨_, .empty⟩
  | red hl hr => exact ⟨_, .black hl hr⟩
  | black hl hr => exact ⟨_, .black hl hr⟩

theorem insert_balanced (h : Balanced t .black n) : ∃ m, Balanced (t.insert cmp k v) .black m := by
  obtain ⟨_, h⟩ : ∃ c, Balanced (t.innerInsert cmp k v) c n := innerInsert_balanced h
  exact h.fixRootColor

theorem toList_innerInsert [TransCmp cmp] (h : Sorted cmp t.toList) :
    (t.innerInsert cmp k v).toList = put cmp k v t.toList := by
  induction t with
  | empty => rfl
  | node c s e l r ihl ihr =>
    unfold innerInsert
    split
    · next he => rw [toList_fixUp, toList_node, ihl h.left, toList_node, put_split_gt he]
    · next he => rw [toList_fixUp, toList_node, ihr h.right, toList_node, put_split_lt h he]
    · next he => rw [toList_node, toList_node, put_split_eq h he]

theorem toList_insert [TransCmp cmp] (h : Sorted cmp t.toList) : (t.insert cmp k v).toList = put cmp k v t.toList := by
  rw [LlrbNode.insert, toList_fixRootColor, toList_innerInsert h]

/-! ## Lending -/

/-- A tree with a red link at its root. The one that leans right is met with
one entry only, of which `P` tells. -/
inductive Spare (P : κ × ν → Prop) : LlrbNode κ ν → Color → Nat → Prop
  | red {s : Nat} {e : κ × ν} {l r : LlrbNode κ ν} {n : Nat} :
    Balanced l .black n → Balanced r .black n → Spare P (.node .red s e l r) .red n
  | left {s : Nat} {e : κ × ν} {l r : LlrbNode κ ν} {n : Nat} :
    Balanced l .red n → Balanced r .black n → Spare P (.node .black s e l r) .black (n + 1)
  | right {s : Nat} {e : κ × ν} {l r : LlrbNode κ ν} {n : Nat} :
    P e → Balanced l .black n → Balanced r .red n → Spare P (.node .black s e l r) .black (n + 1)

/-- What is left of a tree with a red link once an entry is out: a red root
may have gone with it, the black height has not. -/
def Kept (t : LlrbNode κ ν) (n : Nat) : Color → Prop
  | .black => Balanced t .black n
  | .red => ∃ c, Balanced t c n

/-- A node of colour `c` over children of black height `n`, the redder of them
`k`, on the way down: its colour is then `c'`, and `near`, the child gone down
into, is empty or has a red link. It had one, or is given one of the node's own
black height, or, where neither child has one, of both children's. -/
inductive Lent (P : κ × ν → Prop) (c : Color) : Color → Nat → Color → LlrbNode κ ν → LlrbNode κ ν → Prop
  | none : Lent P c .black 0 c .empty .empty
  | same {k : Color} {n : Nat} {near far : LlrbNode κ ν} :
    Spare P near k n → Balanced far .black n → Lent P c k n c near far
  | flip {m : Nat} {near far : LlrbNode κ ν} :
    Spare P near .red m → Balanced far .red m → Lent P c .black (m + 1) c.opposite near far

section

variable {P : κ × ν → Prop} {sl sr : Nat} {el er : κ × ν} {ll lr rl rr : LlrbNode κ ν}

theorem lendLeft_self {n : LlrbNode κ ν} (h : n.left.isEmpty = false → n.left.red = false → n.left.left.red = true) :
    n.lendLeft = n := by
  refine if_neg fun hn => ?_
  simp only [Bool.and_eq_true, Bool.not_eq_true'] at hn
  simp [h hn.1.1 hn.1.2] at hn

theorem lendLeft_flip (hll : ll.red = false) (hrl : rl.red = false) :
    (node c s e (node .black sl el ll lr) (node .black sr er rl rr)).lendLeft =
      node c.opposite s e (node .red sl el ll lr) (node .red sr er rl rr) := by
  simp [lendLeft, moveRedLeft, hll, hrl, Color.opposite]

theorem lendLeft_rotate {srl : Nat} {erl : κ × ν} {rll rlr : LlrbNode κ ν} (hll : ll.red = false) :
    (node c s e (node .black sl el ll lr) (node .black sr er (node .red srl erl rll rlr) rr)).lendLeft =
      node c s erl (node .black (sl + 1 + rll.size) e (node .red sl el ll lr) rll)
        (node .black (rlr.size + 1 + rr.size) er rlr rr) := by
  cases c <;> simp [lendLeft, moveRedLeft, hll, Color.opposite]

theorem lendLeft_spec (hl : Balanced l cl n) (hr : Balanced r .black n) :
    ∃ c' s' e' l' r', (node c s e l r).lendLeft = node c' s' e' l' r' ∧ (e' = e ∨ e' ∈ r.toList) ∧
      Lent P c cl n c' l' r' := by
  cases hl with
  | empty =>
    cases hr
    exact ⟨_, _, _, _, _, lendLeft_self (by simp), .inl rfl, .none⟩
  | red hll hlr => exact ⟨_, _, _, _, _, lendLeft_self (by simp), .inl rfl, .same (.red hll hlr) hr⟩
  | @black _ _ ll lr cll _ hll hlr =>
    cases cll with
    | red => exact ⟨_, _, _, _, _, lendLeft_self (by simp [hll.red_eq]), .inl rfl, .same (.left hll hlr) hr⟩
    | black =>
      cases hr with
      | @black _ _ rl rr crl _ hrl hrr =>
        cases crl with
        | black =>
          exact ⟨_, _, _, _, _, lendLeft_flip hll.black_eq hrl.black_eq, .inl rfl, .flip (.red hll hlr) (.red hrl hrr)⟩
        | red =>
          cases hrl with
          | red hrll hrlr =>
            exact ⟨_, _, _, _, _, lendLeft_rotate hll.black_eq, .inr (by simp),
              .same (.left (.red hll hlr) hrll) (.black hrlr hrr)⟩

theorem lendRight_self {n : LlrbNode κ ν} (hl : n.left.red = false)
    (h : n.right.isEmpty = false → n.right.red = false → n.right.left.red = true) : n.lendRight = n := by
  simp only [lendRight, hl, Bool.false_eq_true, if_false]
  refine if_neg fun hn => ?_
  simp only [Bool.and_eq_true, Bool.not_eq_true'] at hn
  simp [h hn.1.1 hn.1.2] at hn

theorem lendRight_red :
    (node c s e (node .red sl el ll lr) r).lendRight = node c s el ll (node .red (lr.size + 1 + r.size) e lr r) := by
  simp [lendRight]

theorem lendRight_flip (hll : ll.red = false) (hrl : rl.red = false) :
    (node c s e (node .black sl el ll lr) (node .black sr er rl rr)).lendRight =
      node c.opposite s e (node .red sl el ll lr) (node .red sr er rl rr) := by
  simp [lendRight, moveRedRight, hll, hrl, Color.opposite]

theorem lendRight_rotate {sll : Nat} {ell : κ × ν} {lll llr : LlrbNode κ ν} (hrl : rl.red = false) :
    (node c s e (node .black sl el (node .red sll ell lll llr) lr) (node .black sr er rl rr)).lendRight =
      node c s el (node .black sll ell lll llr)
        (node .black (lr.size + 1 + sr) e lr (node .red sr er rl rr)) := by
  cases c <;> simp [lendRight, moveRedRight, hrl, Color.opposite]

/-- Where the entry is another, it is one from the left. -/
theorem lendRight_spec (hl : Balanced l cl n) (hr : Balanced r cr n) (h : cl = .black ∨ cr = .black) :
    ∃ c' s' e' l' r', (node c s e l r).lendRight = node c' s' e' l' r' ∧
      (e' = e ∧ Lent (fun _ => False) c (if cl = .red then .red else cr) n c' r' l' ∨
        e' ∈ l.toList ∧ Lent (· = e) c (if cl = .red then .red else cr) n c' r' l') := by
  cases hl with
  | red hll hlr =>
    obtain rfl : cr = .black := by simpa using h
    exact ⟨_, _, _, _, _, lendRight_red, .inr ⟨by simp, .same (.red hlr hr) hll⟩⟩
  | empty =>
    cases hr with
    | empty => exact ⟨_, _, _, _, _, lendRight_self rfl (by simp), .inl ⟨rfl, .none⟩⟩
    | red hrl hrr =>
      exact ⟨_, _, _, _, _, lendRight_self rfl (by simp), .inl ⟨rfl, .same (.red hrl hrr) .empty⟩⟩
  | @black _ _ ll lr cll _ hll hlr =>
    cases hr with
    | red hrl hrr =>
      exact ⟨_, _, _, _, _, lendRight_self rfl (by simp), .inl ⟨rfl, .same (.red hrl hrr) (.black hll hlr)⟩⟩
    | @black _ _ rl rr crl _ hrl hrr =>
      cases crl with
      | red =>
        exact ⟨_, _, _, _, _, lendRight_self rfl (by simp [hrl.red_eq]),
          .inl ⟨rfl, .same (.left hrl hrr) (.black hll hlr)⟩⟩
      | black =>
        cases cll with
        | black =>
          exact ⟨_, _, _, _, _, lendRight_flip hll.black_eq hrl.black_eq,
            .inl ⟨rfl, .flip (.red hrl hrr) (.red hll hlr)⟩⟩
        | red =>
          cases hll with
          | red ha hb =>
            exact ⟨_, _, _, _, _, lendRight_rotate hrl.black_eq,
              .inr ⟨by simp, .same (.right rfl hlr (.red hrl hrr)) (.black ha hb)⟩⟩

end

/-- The node over a child that lost an entry. A root that had no red link and
was lent none of its own black height may end one lower. -/
def Mended (t : LlrbNode κ ν) (n : Nat) : Color → Color → Prop
  | .red, .black => ∃ c, Balanced t c n
  | .black, .red => Balanced t .black (n + 1)
  | .black, .black => ∃ m, Balanced t.fixRootColor .black m
  | .red, .red => True

theorem mended_empty : Mended (.empty : LlrbNode κ ν) 0 c .black := by cases c <;> exact ⟨_, .empty⟩

theorem Lent.mended {P : κ × ν → Prop} {k c' : Color} {near far near' : LlrbNode κ ν} (h : Lent P c k n c' near far)
    (he : near = .empty → near' = .empty) (hk : ∀ c n, Spare P near c n → Kept near' n c)
    (hlr : l = near' ∧ r = far ∨ l = far ∧ r = near') : Mended (node c' s e l r).fixUp n c k := by
  cases h with
  | none =>
    obtain rfl := he rfl
    obtain ⟨rfl, rfl⟩ : l = .empty ∧ r = .empty := by simpa using hlr
    cases c with
    | red => exact ⟨_, fixUp_red .empty .empty⟩
    | black => exact (fixUp_black .empty .empty (.inl rfl)).fixRootColor
  | same hs hfar =>
    have hnear := hk _ _ hs
    cases k with
    | black =>
      obtain ⟨hl, hr⟩ : Balanced l .black n ∧ Balanced r .black n := by
        rcases hlr with ⟨rfl, rfl⟩ | ⟨rfl, rfl⟩
        · exact ⟨hnear, hfar⟩
        · exact ⟨hfar, hnear⟩
      cases c with
      | red => exact ⟨_, fixUp_red hl hr⟩
      | black => exact (fixUp_black hl hr (.inl rfl)).fixRootColor
    | red =>
      cases c with
      | red => trivial
      | black =>
        obtain ⟨_, hnear⟩ := hnear
        rcases hlr with ⟨rfl, rfl⟩ | ⟨rfl, rfl⟩
        · exact fixUp_black hnear hfar (.inr rfl)
        · exact fixUp_black hfar hnear (.inl rfl)
  | flip hs hfar =>
    obtain ⟨_, hnear⟩ := hk _ _ hs
    obtain ⟨_, _, hl, hr⟩ : ∃ cl cr, Balanced l cl _ ∧ Balanced r cr _ := by
      rcases hlr with ⟨rfl, rfl⟩ | ⟨rfl, rfl⟩
      · exact ⟨_, _, hnear, hfar⟩
      · exact ⟨_, _, hfar, hnear⟩
    cases c with
    | red => exact fixUp_any hl hr
    | black => exact fixUp_root hl hr

/-! ## erase -/

theorem min?_eq (t : LlrbNode κ ν) : t.min? = t.toList.head? := by
  induction t with
  | empty => rfl
  | node _ _ e l _ ih =>
    cases l with
    | empty => rfl
    | node => simpa [min?, List.head?_append] using ih

theorem Spare.not_empty {P : κ × ν → Prop} (h : Spare P t c n) : t ≠ .empty := by rintro rfl; cases h

theorem Lent.same_or_empty {P : κ × ν → Prop} {k c' : Color} {near far : LlrbNode κ ν} (h : Lent P c k n c' near far) :
    near = .empty ∧ far = .empty ∧ n = 0 ∧ k = .black ∨ ∃ c n, Spare P near c n := by
  cases h with
  | none => exact .inl ⟨rfl, rfl, rfl, rfl⟩
  | same hs => exact .inr ⟨_, _, hs⟩
  | flip hs => exact .inr ⟨_, _, hs⟩

theorem toList_ne_nil (h : t ≠ .empty) : t.toList ≠ [] := by
  cases t with
  | empty => exact absurd rfl h
  | node => simp

theorem removeMin_step (hl : Balanced l cl n) (hr : Balanced r .black n)
    (ih : ∀ t c n, t.count < (node c' s e l r).count → Spare (fun _ : κ × ν => False) t c n →
      Kept t.removeMin n c ∧ t.removeMin.toList = t.toList.tail) :
    Mended (node c' s e l r).removeMin n c' cl ∧
      (node c' s e l r).removeMin.toList = (node c' s e l r).toList.tail := by
  unfold removeMin
  split
  · next hempty =>
    cases hl with
    | empty =>
      cases hr
      exact ⟨mended_empty, rfl⟩
    | red => simp at hempty
    | black => simp at hempty
  · next hne =>
    obtain ⟨c₁, s₁, e₁, l₁, r₁, heq, -, hlent⟩ := lendLeft_spec (c := c') (s := s) (e := e)
      (P := fun _ => False) hl hr
    have hcount := count_lendLeft (n := node c' s e l r) rfl
    have hlist := toList_lendLeft (node c' s e l r)
    rw [heq] at hcount hlist ⊢
    simp only [left_node, toList_node, setLeft_node, toList_fixUp] at hcount hlist ⊢
    obtain ⟨rfl, rfl, -, -⟩ | ⟨_, _, hs⟩ := hlent.same_or_empty
    · have hl0 : l.toList ≠ [] := toList_ne_nil (by rintro rfl; simp at hne)
      have := congrArg List.length hlist
      have := List.length_pos_of_ne_nil hl0
      simp at *
      omega
    · refine ⟨hlent.mended (fun h => absurd h hs.not_empty) (fun c n hs => (ih _ c n hcount hs).1) (.inl ⟨rfl, rfl⟩), ?_⟩
      rw [(ih _ _ _ hcount hs).2, ← hlist, List.tail_append_of_ne_nil (toList_ne_nil hs.not_empty)]

theorem removeMin_spec (h : Spare (fun _ : κ × ν => False) t c n) :
    Kept t.removeMin n c ∧ t.removeMin.toList = t.toList.tail := by
  induction hm : t.count using Nat.strong_induction_on generalizing t c n with
  | _ m ih =>
    subst hm
    have ih t' c n (ht : t'.count < t.count) (hs : Spare (fun _ => False) t' c n) := ih _ ht hs rfl
    cases h with
    | red hl hr => exact removeMin_step hl hr ih
    | left hl hr => exact removeMin_step hl hr ih
    | right h => exact h.elim

theorem Spare.mono {P Q : κ × ν → Prop} (h : Spare P t c n) (hPQ : ∀ e, P e → Q e) : Spare Q t c n := by
  cases h with
  | red hl hr => exact .red hl hr
  | left hl hr => exact .left hl hr
  | right hP hl hr => exact .right (hPQ _ hP) hl hr

theorem Lent.mono {P Q : κ × ν → Prop} {k c' : Color} {near far : LlrbNode κ ν} (h : Lent P c k n c' near far)
    (hPQ : ∀ e, P e → Q e) : Lent Q c k n c' near far := by
  cases h with
  | none => exact .none
  | same hs hfar => exact .same (hs.mono hPQ) hfar
  | flip hs hfar => exact .flip (hs.mono hPQ) hfar

/-- Erase from a tree with a red link: a link that leans right was made by a
rotation on the way to a key not below its entry. -/
def Erases (cmp : κ → κ → Ordering) (k : κ) (t : LlrbNode κ ν) : Prop :=
  ∀ c n, Spare (fun e => cmp k e.1 ≠ .lt) t c n → Sorted cmp t.toList →
    Kept (t.innerErase cmp k) n c ∧ (t.innerErase cmp k).toList = without cmp k t.toList

/-- Down into one child. -/
theorem innerErase_child {k' : Color} {c' : Color} {near far : LlrbNode κ ν}
    (hlent : Lent (fun e => cmp k e.1 ≠ .lt) c k' n c' near far) (ih : Erases cmp k near) (hs : Sorted cmp near.toList)
    (hlr : l = near.innerErase cmp k ∧ r = far ∨ l = far ∧ r = near.innerErase cmp k) :
    Mended (node c' s e l r).fixUp n c k' ∧ (near.innerErase cmp k).toList = without cmp k near.toList := by
  refine ⟨hlent.mended (fun h => by simp [h, innerErase]) (fun c n hspare => (ih c n hspare hs).1) hlr, ?_⟩
  obtain ⟨rfl, -, -, -⟩ | ⟨_, _, hspare⟩ := hlent.same_or_empty
  · simp [innerErase, without]
  · exact (ih _ _ hspare hs).2

section

variable [TransCmp cmp]

theorem innerErase_left (hl : Balanced l cl n) (hr : Balanced r .black n) (hs : Sorted cmp (node c s e l r).toList)
    (hlt : cmp k e.1 = .lt) (ih : ∀ t : LlrbNode κ ν, t.count < (node c s e l r).count → Erases cmp k t) :
    Mended ((node c s e l r).innerErase cmp k) n c cl ∧
      ((node c s e l r).innerErase cmp k).toList = without cmp k (node c s e l r).toList := by
  obtain ⟨c', s', e', l', r', heq, he, hlent⟩ := lendLeft_spec (c := c) (s := s) (e := e)
    (P := fun e => cmp k e.1 ≠ .lt) hl hr
  have hlt' : cmp k e'.1 = .lt := by
    rcases he with rfl | he
    · exact hlt
    · exact TransCmp.lt_trans hlt (hs.above _ he)
  have hcount := count_lendLeft (n := node c s e l r) rfl
  have hlist := toList_lendLeft (node c s e l r)
  unfold innerErase
  rw [if_pos hlt]
  rw [heq] at hcount hlist ⊢
  rw [left_node] at hcount
  rw [← hlist] at hs ⊢
  obtain ⟨hm, hlist'⟩ := innerErase_child (s := s') (e := e') hlent (ih _ hcount) hs.left (.inl ⟨rfl, rfl⟩)
  exact ⟨hm, by rw [left_node, setLeft_node, toList_fixUp, toList_node, hlist', toList_node, without_split_lt hs hlt']⟩

theorem innerErase_right (hl : Balanced l cl n) (hr : Balanced r cr n) (h : cl = .black ∨ cr = .black)
    (hs : Sorted cmp (node c s e l r).toList) (hge : cmp k e.1 ≠ .lt)
    (ih : ∀ t : LlrbNode κ ν, t.count < (node c s e l r).count → Erases cmp k t) :
    Mended ((node c s e l r).innerErase cmp k) n c (if cl = .red then .red else cr) ∧
      ((node c s e l r).innerErase cmp k).toList = without cmp k (node c s e l r).toList := by
  obtain ⟨c', s', e', l', r', heq, hlent⟩ := lendRight_spec (c := c) (s := s) (e := e) hl hr h
  have hcount := count_lendRight (n := node c s e l r) rfl
  have hlist := toList_lendRight (node c s e l r)
  rw [heq] at hcount hlist
  rw [right_node] at hcount
  -- a key not below the entry is above any entry rotated into its place
  have hne : e' ∈ l.toList → cmp k e'.1 = .gt := fun he =>
    OrientedCmp.gt_of_lt (TransCmp.lt_of_lt_of_isLE (hs.below _ he)
      (OrientedCmp.isLE_of_isGE (Ordering.isGE_iff_ne_lt.2 hge)))
  rw [← hlist] at hs ⊢
  unfold innerErase
  rw [if_neg hge]
  split
  · next h => simp [heq] at h
  · next c₁ s₁ e₁ l₁ r₁ h =>
    obtain ⟨rfl, rfl, rfl, rfl, rfl⟩ : c₁ = c' ∧ s₁ = s' ∧ e₁ = e' ∧ l₁ = l' ∧ r₁ = r' := by
      simpa [heq, eq_comm] using h
    split
    · next heq' =>
      obtain ⟨rfl, hlent⟩ | ⟨he, -⟩ := hlent
      · have hmin := min?_eq r₁
        rw [toList_node, without_split_eq hs heq']
        obtain ⟨rfl, rfl, rfl, hk⟩ | ⟨_, _, hspare⟩ := hlent.same_or_empty
        · exact ⟨hk ▸ mended_empty, rfl⟩
        · split
          · next hnone =>
            rw [hnone] at hmin
            exact absurd (List.head?_eq_none_iff.1 hmin.symm) (toList_ne_nil hspare.not_empty)
          · next smallest hsome =>
            obtain ⟨_, hrl⟩ := List.head?_eq_some_iff.1 (hsome ▸ hmin).symm
            refine ⟨hlent.mended (fun h => absurd h hspare.not_empty) (fun c n hs => (removeMin_spec hs).1)
              (.inr ⟨rfl, rfl⟩), ?_⟩
            rw [toList_fixUp, toList_node, (removeMin_spec hspare).2, hrl, List.tail_cons]
      · simp [hne he] at heq'
    · next hne' =>
      have hgt : cmp k e₁.1 = .gt := by
        rcases hlent with ⟨rfl, -⟩ | ⟨he, -⟩
        · cases hk : cmp k e₁.1 <;> simp_all
        · exact hne he
      have hlent : Lent (fun e => cmp k e.1 ≠ .lt) c (if cl = .red then .red else cr) n c₁ r₁ l₁ := by
        rcases hlent with ⟨-, hlent⟩ | ⟨-, hlent⟩
        · exact hlent.mono fun _ h => h.elim
        · exact hlent.mono fun _ h => h ▸ hge
      obtain ⟨hm, hlist'⟩ := innerErase_child (s := s₁) (e := e₁) hlent (ih _ hcount) hs.right (.inr ⟨rfl, rfl⟩)
      exact ⟨hm, by rw [toList_fixUp, toList_node, hlist', toList_node, without_split_gt hs hgt]⟩

theorem innerErase_spec (t : LlrbNode κ ν) : Erases cmp k t := by
  induction hm : t.count using Nat.strong_induction_on generalizing t with
  | _ m ih =>
    subst hm
    have ih t' (ht : t'.count < t.count) : Erases cmp k t' := ih _ ht t' rfl
    intro c n h hs
    cases h with
    | @red s e l r n hl hr =>
      by_cases hlt : cmp k e.1 = .lt
      · exact innerErase_left hl hr hs hlt ih
      · exact innerErase_right hl hr (.inl rfl) hs hlt ih
    | @left s e l r n hl hr =>
      by_cases hlt : cmp k e.1 = .lt
      · exact innerErase_left hl hr hs hlt ih
      · exact innerErase_right hl hr (.inr rfl) hs hlt ih
    | right hge hl hr => exact innerErase_right hl hr (.inl rfl) hs hge ih

theorem erase_spec (h : Balanced t .black n) (hs : Sorted cmp t.toList) :
    (∃ m, Balanced (t.erase cmp k) .black m) ∧ (t.erase cmp k).toList = without cmp k t.toList := by
  unfold LlrbNode.erase
  rw [toList_fixRootColor]
  cases h with
  | empty => exact ⟨by simpa [innerErase] using Balanced.empty.fixRootColor, by simp [innerErase, without]⟩
  | @black s e l r cl n hl hr =>
    have ih (t : LlrbNode κ ν) (_ : t.count < (node .black s e l r).count) : Erases cmp k t := innerErase_spec t
    have h : Mended ((node .black s e l r).innerErase cmp k) n .black cl ∧
        ((node .black s e l r).innerErase cmp k).toList = without cmp k (node .black s e l r).toList := by
      by_cases hlt : cmp k e.1 = .lt
      · exact innerErase_left hl hr hs hlt ih
      · have hk : (if cl = .red then .red else .black) = cl := by cases cl <;> rfl
        exact hk ▸ innerErase_right hl hr (.inr rfl) hs hlt ih
    refine ⟨?_, h.2⟩
    cases cl with
    | red => exact Balanced.fixRootColor h.1
    | black => exact h.1

end

end LlrbNode
