/-
# The nodes of a B-tree (`storage/btree/btree.h`, `btree.tcc`)

A node holds up to `maxCount` values, and a child before the first value and after each
value.  The members of `btree_node` that move values and children between siblings never
change what the siblings and their delimiting value hold between them: put together (`merge`)
the two nodes are the same before and after, only cut at another place (`Repartition`).

An operation gives `none` where one of its assertions fails.
-/
import Atlasdb.BtreeSearch

/-! ## Nodes -/

/-- `btree_node`: the value array and the child array, as the child before the first value and
each value with the child after it.  A leaf keeps no children: there the type of children has
only one element. -/
structure BtreeNode (α β : Type) where
  maxCount : ℕ
  first : β
  rest : List (α × β)

namespace BtreeNode

variable {α β κ : Type}

/-- `count()` -/
def count (n : BtreeNode α β) : ℕ := n.rest.length

/-- `value(0)` to `value(count() - 1)` -/
def values (n : BtreeNode α β) : List α := n.rest.map Prod.fst

/-- `child(0)` to `child(count())` -/
def children (n : BtreeNode α β) : List β := n.first :: n.rest.map Prod.snd

/-- `key(0)` to `key(count() - 1)` -/
def keys (P : BtreeParams κ α) (n : BtreeNode α β) : List κ := n.values.map P.key

/-- `init_leaf`: a new leaf has no values. -/
def initLeaf (maxCount : ℕ) : BtreeNode α Unit := ⟨maxCount, (), []⟩

/-! ## Searches -/

section Search

open BtreeSearch

/-- `lower_bound`: the search is linear for arithmetic keys. -/
def lowerBound (P : BtreeParams κ α) (n : BtreeNode α β) (k : κ) : ℕ :=
  match P.keyCompare, P.arithmeticKey with
  | .plain comp, true =>
      linearSearchPlainCompare (n.keys P) k comp.lt 0 (n.keys P).length (Nat.le_refl _)
  | .plain comp, false =>
      binarySearchPlainCompare (n.keys P) k comp.lt 0 (n.keys P).length (Nat.zero_le _)
        (Nat.le_refl _)
  | .compareTo comp, true =>
      linearSearchCompareTo (n.keys P) k comp.compare 0 (n.keys P).length (Nat.le_refl _)
  | .compareTo comp, false =>
      binarySearchCompareTo (n.keys P) k comp.compare 0 (n.keys P).length (Nat.zero_le _)
        (Nat.le_refl _)

/-- `btree_upper_bound_adapter` -/
def upperBoundAdapter (lt : κ → κ → Bool) (a b : κ) : Bool := !lt b a

/-- `upper_bound`: with three-way comparisons always linear. -/
def upperBound (P : BtreeParams κ α) (n : BtreeNode α β) (k : κ) : ℕ :=
  match P.keyCompare, P.arithmeticKey with
  | .plain comp, true =>
      linearSearchPlainCompare (n.keys P) k (upperBoundAdapter comp.lt) 0 (n.keys P).length
        (Nat.le_refl _)
  | .plain comp, false =>
      binarySearchPlainCompare (n.keys P) k (upperBoundAdapter comp.lt) 0 (n.keys P).length
        (Nat.zero_le _) (Nat.le_refl _)
  | .compareTo comp, _ =>
      linearSearchPlainCompare (n.keys P) k (upperBoundAdapter comp.order.lt) 0
        (n.keys P).length (Nat.le_refl _)

/-- The keys of the values in order are in order. -/
theorem ordered_keys {P : BtreeParams κ α} {n : BtreeNode α β}
    (h : P.order.Ordered P.key n.values) : P.order.Ordered id (n.keys P) :=
  List.pairwise_map.mpr h

/-- Counting keys that pass a test is counting values. -/
theorem length_takeWhile_keys (P : BtreeParams κ α) (n : BtreeNode α β) (p : κ → Bool) :
    ((n.keys P).takeWhile p).length = (n.values.takeWhile fun v => p (P.key v)).length := by
  unfold keys
  rw [List.takeWhile_map, List.length_map]
  rfl

/-- With a plain comparison `lower_bound` gives the number of values below the key. -/
theorem lowerBound_plain {P : BtreeParams κ α} {n : BtreeNode α β} {comp : StrictWeakOrder κ}
    (hc : P.keyCompare = .plain comp) (h : P.order.Ordered P.key n.values) (k : κ) :
    n.lowerBound P k = (n.values.takeWhile (P.order.below P.key k)).length := by
  have hkeys := ordered_keys h
  unfold BtreeParams.order at hkeys ⊢
  rw [hc] at hkeys ⊢
  have hdown : Downward (fun x => comp.lt x k) (n.keys P) := hkeys.downward_below k
  show _ = (n.values.takeWhile fun v => comp.lt (P.key v) k).length
  rw [← length_takeWhile_keys P n fun x => comp.lt x k]
  cases ha : P.arithmeticKey with
  | true =>
      simp only [lowerBound, hc, ha]
      exact (linearSearchPlainCompare_isPlace hdown (Nat.zero_le _) _).eq_length
  | false =>
      simp only [lowerBound, hc, ha]
      exact (binarySearchPlainCompare_isPlace hdown (Nat.zero_le _) _).eq_length

/-- With a three-way comparison it flags that number when the key itself stands there. -/
theorem lowerBound_compareTo {P : BtreeParams κ α} {n : BtreeNode α β} {comp : CompareTo κ}
    (hc : P.keyCompare = .compareTo comp) (h : P.order.Ordered P.key n.values) (k : κ) :
    n.lowerBound P k =
      if MatchAt comp (n.keys P) k (n.keys P).length
          (n.values.takeWhile (P.order.below P.key k)).length
      then (n.values.takeWhile (P.order.below P.key k)).length ||| kExactMatch
      else (n.values.takeWhile (P.order.below P.key k)).length := by
  have hkeys := ordered_keys h
  unfold BtreeParams.order at hkeys ⊢
  rw [hc] at hkeys ⊢
  have hresult : IsResult comp (n.keys P) k 0 (n.keys P).length (n.lowerBound P k) := by
    cases ha : P.arithmeticKey with
    | true =>
        simp only [lowerBound, hc, ha]
        exact linearSearchCompareTo_isResult hkeys (Nat.zero_le _) _
    | false =>
        simp only [lowerBound, hc, ha]
        exact binarySearchCompareTo_isResult hkeys (Nat.zero_le _) _
  obtain ⟨r, hr, hres⟩ := hresult
  have hlen := hr.eq_length
  rw [length_takeWhile_keys P n fun x => decide (comp.compare x k < 0)] at hlen
  rw [hres, hlen]
  rfl

/-- **All searches of a node find the same place**: `lower_bound` gives, its flag masked off, the
number of values below the key. -/
theorem lowerBound_eq {P : BtreeParams κ α} {n : BtreeNode α β}
    (h : P.order.Ordered P.key n.values) (hcount : n.count < kExactMatch) (k : κ) :
    n.lowerBound P k &&& kMatchMask = (n.values.takeWhile (P.order.below P.key k)).length := by
  have hlt : (n.values.takeWhile (P.order.below P.key k)).length < kExactMatch := by
    have := (List.takeWhile_sublist (P.order.below P.key k) (l := n.values)).length_le
    unfold values at this
    rw [List.length_map] at this
    exact this.trans_lt hcount
  cases hc : P.keyCompare with
  | plain comp => rw [lowerBound_plain hc h, and_kMatchMask hlt]
  | compareTo comp =>
      rw [lowerBound_compareTo hc h]
      split
      · exact or_and_kMatchMask hlt
      · exact and_kMatchMask hlt

/-- `upper_bound` gives the number of values up to the key. -/
theorem upperBound_eq {P : BtreeParams κ α} {n : BtreeNode α β}
    (h : P.order.Ordered P.key n.values) (k : κ) :
    n.upperBound P k = (n.values.takeWhile (P.order.upTo P.key k)).length := by
  have hdown : Downward (fun x => upperBoundAdapter P.order.lt x k) (n.keys P) :=
    (ordered_keys h).downward_upTo k
  show _ = (n.values.takeWhile fun v => upperBoundAdapter P.order.lt (P.key v) k).length
  rw [← length_takeWhile_keys P n fun x => upperBoundAdapter P.order.lt x k]
  unfold BtreeParams.order at hdown ⊢
  cases hc : P.keyCompare with
  | plain comp =>
      rw [hc] at hdown
      cases ha : P.arithmeticKey with
      | true =>
          simp only [upperBound, hc, ha]
          exact (linearSearchPlainCompare_isPlace hdown (Nat.zero_le _) _).eq_length
      | false =>
          simp only [upperBound, hc, ha]
          exact (binarySearchPlainCompare_isPlace hdown (Nat.zero_le _) _).eq_length
  | compareTo comp =>
      rw [hc] at hdown
      simp only [upperBound, hc]
      exact (linearSearchPlainCompare_isPlace hdown (Nat.zero_le _) _).eq_length

/-- A leaf of a small set. -/
def smallLeaf (l : List ℤ) : BtreeNode ℤ Unit := ⟨3, (), l.map (·, ())⟩

end Search

/-! ## Moving values and children -/

/-- `insert_value(i, x)`, and for an internal node the `set_child(i + 1, c)` that follows it:
what stands at `i` and after it moves up by one. -/
def insertValue (n : BtreeNode α β) (i : ℕ) (x : α) (c : β) : Option (BtreeNode α β) :=
  if i ≤ n.count then some { n with rest := n.rest.take i ++ (x, c) :: n.rest.drop i } else none

/-- `remove_value(i)`: the child after the value goes with it. -/
def removeValue (n : BtreeNode α β) (i : ℕ) : BtreeNode α β :=
  { n with rest := n.rest.take i ++ n.rest.drop (i + 1) }

/-- `merge(src)`: the delimiting value of the parent and all of the right node. -/
def merge (n : BtreeNode α β) (delim : α) (src : BtreeNode α β) : BtreeNode α β :=
  { n with rest := n.rest ++ (delim, src.first) :: src.rest }

/-- `rebalance_right_to_left(src, to_move)`: both nodes and the delimiting value between
them in their parent. -/
def rebalanceRightToLeft (n : BtreeNode α β) (delim : α) (src : BtreeNode α β) (toMove : ℕ) :
    Option (BtreeNode α β × α × BtreeNode α β) :=
  if n.count ≤ src.count ∧ 1 ≤ toMove ∧ toMove ≤ src.count then
    match src.rest.drop (toMove - 1) with
    | (v, c) :: kept =>
        some ({ n with rest := n.rest ++ (delim, src.first) :: src.rest.take (toMove - 1) }, v,
          { src with first := c, rest := kept })
    | [] => none
  else none

/-- `rebalance_left_to_right(dest, to_move)` -/
def rebalanceLeftToRight (n : BtreeNode α β) (delim : α) (dest : BtreeNode α β) (toMove : ℕ) :
    Option (BtreeNode α β × α × BtreeNode α β) :=
  if dest.count ≤ n.count ∧ 1 ≤ toMove ∧ toMove ≤ n.count then
    match n.rest.drop (n.count - toMove) with
    | (v, c) :: moved =>
        some ({ n with rest := n.rest.take (n.count - toMove) }, v,
          { dest with first := c, rest := moved ++ (delim, dest.first) :: dest.rest })
    | [] => none
  else none

/-- How many values `split` gives to the new node: it is biased by the position at which
a value is to be inserted. -/
def splitCount (n : BtreeNode α β) (insertPosition : ℕ) : ℕ :=
  if insertPosition = 0 then n.count - 1
  else if insertPosition = n.maxCount then 0
  else n.count / 2

/-- `split(dest, insert_position)`: the node, the value that goes up to the parent, which is the
largest that is left to the node, and the new node. -/
def split (n : BtreeNode α β) (destMaxCount insertPosition : ℕ) :
    Option (BtreeNode α β × α × BtreeNode α β) :=
  let left := n.count - n.splitCount insertPosition
  if 1 ≤ left then
    match n.rest.drop (left - 1) with
    | (v, c) :: moved =>
        some ({ n with rest := n.rest.take (left - 1) }, v, ⟨destMaxCount, c, moved⟩)
    | [] => none
  else none

/-! ## Two nodes cut at another place -/

/-- The same values and children, in two nodes and a delimiting value. -/
structure Repartition (n : BtreeNode α β) (delim : α) (m n' : BtreeNode α β) (delim' : α)
    (m' : BtreeNode α β) : Prop where
  merged : merge n' delim' m' = merge n delim m
  maxRight : m'.maxCount = m.maxCount

theorem Repartition.maxLeft {n m n' m' : BtreeNode α β} {delim delim' : α}
    (h : Repartition n delim m n' delim' m') : n'.maxCount = n.maxCount := by
  show (merge n' delim' m').maxCount = (merge n delim m).maxCount
  rw [h.merged]

theorem rebalanceRightToLeft_spec {n src : BtreeNode α β} {delim : α} {toMove : ℕ}
    (hle : n.count ≤ src.count) (hpos : 1 ≤ toMove) (hmove : toMove ≤ src.count) :
    ∃ n' delim' src', rebalanceRightToLeft n delim src toMove = some (n', delim', src') ∧
      Repartition n delim src n' delim' src' ∧ n'.count = n.count + toMove ∧
      src'.count = src.count - toMove := by
  have hlen : (src.rest.drop (toMove - 1)).length = src.count - (toMove - 1) := List.length_drop
  cases hd : src.rest.drop (toMove - 1) with
  | nil =>
      rw [hd, List.length_nil] at hlen
      omega
  | cons vc kept =>
      obtain ⟨v, c⟩ := vc
      rw [hd, List.length_cons] at hlen
      refine ⟨{ n with rest := n.rest ++ (delim, src.first) :: src.rest.take (toMove - 1) }, v,
        { src with first := c, rest := kept }, ?_, ⟨?_, rfl⟩, ?_, ?_⟩
      · unfold rebalanceRightToLeft
        rw [if_pos ⟨hle, hpos, hmove⟩, hd]
      · unfold merge
        show BtreeNode.mk n.maxCount n.first
          ((n.rest ++ (delim, src.first) :: src.rest.take (toMove - 1)) ++ (v, c) :: kept) = _
        rw [List.append_assoc, List.cons_append, ← hd, List.take_append_drop]
      · unfold count at *
        rw [List.length_append, List.length_cons, List.length_take]
        omega
      · unfold count at *
        show kept.length = _
        omega

theorem rebalanceLeftToRight_spec {n dest : BtreeNode α β} {delim : α} {toMove : ℕ}
    (hle : dest.count ≤ n.count) (hpos : 1 ≤ toMove) (hmove : toMove ≤ n.count) :
    ∃ n' delim' dest', rebalanceLeftToRight n delim dest toMove = some (n', delim', dest') ∧
      Repartition n delim dest n' delim' dest' ∧ n'.count = n.count - toMove ∧
      dest'.count = dest.count + toMove := by
  have hlen : (n.rest.drop (n.count - toMove)).length = n.count - (n.count - toMove) :=
    List.length_drop
  cases hd : n.rest.drop (n.count - toMove) with
  | nil =>
      rw [hd, List.length_nil] at hlen
      omega
  | cons vc moved =>
      obtain ⟨v, c⟩ := vc
      rw [hd, List.length_cons] at hlen
      refine ⟨{ n with rest := n.rest.take (n.count - toMove) }, v,
        { dest with first := c, rest := moved ++ (delim, dest.first) :: dest.rest }, ?_,
        ⟨?_, rfl⟩, ?_, ?_⟩
      · unfold rebalanceLeftToRight
        rw [if_pos ⟨hle, hpos, hmove⟩, hd]
      · unfold merge
        show BtreeNode.mk n.maxCount n.first (n.rest.take (n.count - toMove) ++
          (v, c) :: (moved ++ (delim, dest.first) :: dest.rest)) = _
        rw [← List.cons_append, ← hd, ← List.append_assoc, List.take_append_drop]
      · unfold count at *
        rw [List.length_take]
        omega
      · unfold count at *
        rw [List.length_append, List.length_cons]
        omega

/-- The node and the new node with the value between them are the node as it was. -/
theorem split_spec {n : BtreeNode α β} {destMaxCount insertPosition : ℕ}
    (h : n.splitCount insertPosition < n.count) :
    ∃ n' delim dest, split n destMaxCount insertPosition = some (n', delim, dest) ∧
      merge n' delim dest = n ∧ dest.maxCount = destMaxCount ∧
      n'.count = n.count - n.splitCount insertPosition - 1 ∧
      dest.count = n.splitCount insertPosition := by
  have hlen : (n.rest.drop (n.count - n.splitCount insertPosition - 1)).length
      = n.count - (n.count - n.splitCount insertPosition - 1) := List.length_drop
  cases hd : n.rest.drop (n.count - n.splitCount insertPosition - 1) with
  | nil =>
      rw [hd, List.length_nil] at hlen
      omega
  | cons vc moved =>
      obtain ⟨v, c⟩ := vc
      rw [hd, List.length_cons] at hlen
      refine ⟨{ n with rest := n.rest.take (n.count - n.splitCount insertPosition - 1) }, v,
        ⟨destMaxCount, c, moved⟩, ?_, ?_, rfl, ?_, ?_⟩
      · unfold split
        rw [if_pos (by omega), hd]
      · unfold merge
        show BtreeNode.mk n.maxCount n.first
          (n.rest.take (n.count - n.splitCount insertPosition - 1) ++ (v, c) :: moved) = n
        rw [← hd, List.take_append_drop]
      · unfold count at *
        rw [List.length_take]
        omega
      · unfold count at *
        show moved.length = _
        omega

/-- The children of two merged nodes are theirs. -/
theorem children_merge (n : BtreeNode α β) (delim : α) (src : BtreeNode α β) :
    (merge n delim src).children = n.children ++ src.children := by
  unfold merge children
  simp only [List.map_append, List.map_cons, List.cons_append]

@[simp] theorem count_merge (n : BtreeNode α β) (delim : α) (src : BtreeNode α β) :
    (merge n delim src).count = n.count + 1 + src.count := by
  unfold merge count
  rw [List.length_append, List.length_cons]
  omega

theorem Repartition.children {n m n' m' : BtreeNode α β} {delim delim' : α}
    (h : Repartition n delim m n' delim' m') :
    n'.children ++ m'.children = n.children ++ m.children := by
  rw [← children_merge n' delim', ← children_merge n delim, h.merged]

/-! ## Positions in a node -/

/-- The walk of `openAt`: what has been passed (the nearest first), the child reached, and
what is still to come. -/
def openFrom : ℕ → List (β × α) → β → List (α × β) → List (β × α) × β × List (α × β)
  | 0, before, c, rest => (before, c, rest)
  | _ + 1, before, c, [] => (before, c, [])
  | p + 1, before, c, (v, c') :: rest => openFrom p ((c, v) :: before) c' rest

/-- The values and children again, from those before a child and those after it. -/
def closeFrom : List (β × α) → β → List (α × β) → β × List (α × β)
  | [], c, after => (c, after)
  | (c', v) :: before, c, after => closeFrom before c' ((v, c) :: after)

end BtreeNode

/-- A node as one of its children sees it (`parent()`): each child and value before that child,
the nearest first, and each value and child after it. -/
structure ParentNode (α β : Type) where
  maxCount : ℕ
  before : List (β × α)
  after : List (α × β)

namespace ParentNode

variable {α β : Type}

/-- `position()` of the child. -/
def position (parent : ParentNode α β) : ℕ := parent.before.length

/-- `count()` -/
def count (parent : ParentNode α β) : ℕ := parent.before.length + parent.after.length

/-- The parent itself, with the child in its place. -/
def close (parent : ParentNode α β) (c : β) : BtreeNode α β :=
  ⟨parent.maxCount, (BtreeNode.closeFrom parent.before c parent.after).1,
    (BtreeNode.closeFrom parent.before c parent.after).2⟩

end ParentNode

namespace BtreeNode

variable {α β : Type}

/-- `child(p)`, and the node as that child sees it. -/
def openAt (n : BtreeNode α β) (p : ℕ) : ParentNode α β × β :=
  (⟨n.maxCount, (openFrom p [] n.first n.rest).1, (openFrom p [] n.first n.rest).2.2⟩,
    (openFrom p [] n.first n.rest).2.1)

/-- `child(p)` -/
def child (n : BtreeNode α β) (p : ℕ) : β := (n.openAt p).2

section Open

variable (before : List (β × α)) (c : β) (rest : List (α × β))

theorem closeFrom_openFrom (p : ℕ) :
    closeFrom (openFrom p before c rest).1 (openFrom p before c rest).2.1
      (openFrom p before c rest).2.2 = closeFrom before c rest := by
  induction p generalizing before c rest with
  | zero => rfl
  | succ p ih =>
      cases rest with
      | nil => rfl
      | cons e rest => exact ih ((c, e.1) :: before) e.2 rest

/-- Walking on after a walk. -/
theorem openFrom_add (p q : ℕ) (hp : p ≤ rest.length) :
    openFrom (p + q) before c rest =
      openFrom q (openFrom p before c rest).1 (openFrom p before c rest).2.1
        (openFrom p before c rest).2.2 := by
  induction p generalizing before c rest with
  | zero => rw [Nat.zero_add]; rfl
  | succ p ih =>
      cases rest with
      | nil => exact absurd hp (Nat.not_succ_le_zero p)
      | cons e rest =>
          rw [Nat.succ_add]
          exact ih ((c, e.1) :: before) e.2 rest (Nat.le_of_succ_le_succ hp)

theorem closeFrom_length :
    (closeFrom before c rest).2.length = before.length + rest.length := by
  induction before generalizing c rest with
  | nil => exact (Nat.zero_add _).symm
  | cons e before ih =>
      rw [closeFrom, ih, List.length_cons, List.length_cons]
      omega

theorem openFrom_closeFrom :
    openFrom before.length [] (closeFrom before c rest).1 (closeFrom before c rest).2
      = (before, c, rest) := by
  induction before generalizing c rest with
  | nil => rfl
  | cons e before ih =>
      obtain ⟨c', v⟩ := e
      have hlen : before.length ≤ (closeFrom before c' ((v, c) :: rest)).2.length := by
        rw [closeFrom_length]
        exact Nat.le_add_right _ _
      rw [closeFrom, List.length_cons, openFrom_add [] _ _ _ 1 hlen, ih c' ((v, c) :: rest)]
      rfl

/-- What has been passed before the walk stays at the end. -/
theorem openFrom_acc (p : ℕ) :
    openFrom p before c rest =
      ((openFrom p [] c rest).1 ++ before, (openFrom p [] c rest).2) := by
  induction p generalizing before c rest with
  | zero => rfl
  | succ p ih =>
      cases rest with
      | nil => rfl
      | cons e rest =>
          show openFrom p ((c, e.1) :: before) e.2 rest
            = ((openFrom p [(c, e.1)] e.2 rest).1 ++ before, (openFrom p [(c, e.1)] e.2 rest).2)
          rw [ih ((c, e.1) :: before), ih [(c, e.1)], List.append_assoc]
          rfl

theorem openFrom_append (rest' : List (α × β)) (p : ℕ) (hp : p ≤ rest.length) :
    openFrom p before c (rest ++ rest') =
      ((openFrom p before c rest).1, (openFrom p before c rest).2.1,
        (openFrom p before c rest).2.2 ++ rest') := by
  induction p generalizing before c rest with
  | zero => rfl
  | succ p ih =>
      cases rest with
      | nil => exact absurd hp (Nat.not_succ_le_zero p)
      | cons e rest => exact ih ((c, e.1) :: before) e.2 rest (Nat.le_of_succ_le_succ hp)

theorem openFrom_length (p : ℕ) (hp : p ≤ rest.length) :
    (openFrom p before c rest).1.length = before.length + p := by
  induction p generalizing before c rest with
  | zero => rfl
  | succ p ih =>
      cases rest with
      | nil => exact absurd hp (Nat.not_succ_le_zero p)
      | cons e rest =>
          rw [openFrom, ih _ _ _ (Nat.le_of_succ_le_succ hp), List.length_cons]
          omega

theorem openFrom_drop (p : ℕ) : (openFrom p before c rest).2.2 = rest.drop p := by
  induction p generalizing before c rest with
  | zero => rfl
  | succ p ih =>
      cases rest with
      | nil => rfl
      | cons e rest => exact ih ((c, e.1) :: before) e.2 rest

end Open

/-- Closing a node again at the child where it was opened. -/
@[simp] theorem close_openAt (n : BtreeNode α β) (p : ℕ) :
    (n.openAt p).1.close (n.child p) = n := by
  unfold ParentNode.close child openAt
  rw [closeFrom_openFrom]
  rfl

/-- Opening at the position of the child gives the parent and the child. -/
@[simp] theorem openAt_close (parent : ParentNode α β) (c : β) :
    (parent.close c).openAt parent.position = (parent, c) := by
  unfold openAt ParentNode.close ParentNode.position
  rw [openFrom_closeFrom]

@[simp] theorem position_openAt (n : BtreeNode α β) {p : ℕ} (hp : p ≤ n.count) :
    (n.openAt p).1.position = p := by
  unfold openAt ParentNode.position
  rw [openFrom_length _ _ _ _ hp, List.length_nil, Nat.zero_add]

@[simp] theorem after_openAt (n : BtreeNode α β) (p : ℕ) : (n.openAt p).1.after = n.rest.drop p :=
  openFrom_drop _ _ _ _

@[simp] theorem count_openAt (n : BtreeNode α β) {p : ℕ} (hp : p ≤ n.count) :
    (n.openAt p).1.count = n.count := by
  unfold ParentNode.count
  have hpos := position_openAt n hp
  unfold ParentNode.position at hpos
  rw [hpos, after_openAt, List.length_drop]
  unfold count at *
  omega

end BtreeNode
