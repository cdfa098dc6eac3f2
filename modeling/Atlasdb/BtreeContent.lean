/-
# The order of the values below a node

Below a node stand, in order, what its first child holds, its first value, what the next
child holds, and so on.  A position in a node has values to its left and to its right, and
between them the child at that position.  The members that move values between siblings
leave this as it is: a position in one of two siblings is a position in the merged node
(`leftOf_merge_left`, `leftOf_merge_right` and their companions).
-/
import Atlasdb.BtreeNode

section Lists

variable {α β : Type} (content : β → List α)

/-- What stands before a child, from the nearest backwards. -/
def beforeContent : List (β × α) → List α
  | [] => []
  | (c, v) :: before => beforeContent before ++ content c ++ [v]

/-- What stands after a child. -/
def afterContent (after : List (α × β)) : List α := after.flatMap fun e => e.1 :: content e.2

@[simp] theorem beforeContent_cons (c : β) (v : α) (before : List (β × α)) :
    beforeContent content ((c, v) :: before) = beforeContent content before ++ content c ++ [v] :=
  rfl

@[simp] theorem afterContent_nil : afterContent content [] = [] := rfl

@[simp] theorem afterContent_cons (v : α) (c : β) (after : List (α × β)) :
    afterContent content ((v, c) :: after) = v :: (content c ++ afterContent content after) :=
  rfl

theorem beforeContent_append (near far : List (β × α)) :
    beforeContent content (near ++ far)
      = beforeContent content far ++ beforeContent content near := by
  induction near with
  | nil => exact (List.append_nil _).symm
  | cons e near ih =>
      obtain ⟨c, v⟩ := e
      rw [List.cons_append, beforeContent_cons, ih, beforeContent_cons]
      simp only [List.append_assoc]

theorem afterContent_append (after after' : List (α × β)) :
    afterContent content (after ++ after')
      = afterContent content after ++ afterContent content after' := List.flatMap_append

theorem length_afterContent (after : List (α × β)) :
    (afterContent content after).length
      = after.length + (after.map fun e => (content e.2).length).sum := by
  induction after with
  | nil => rfl
  | cons e after ih =>
      obtain ⟨v, c⟩ := e
      simp only [afterContent_cons, List.length_cons, List.length_append, ih, List.map_cons,
        List.sum_cons]
      omega

end Lists

namespace BtreeNode

variable {α β : Type} (content : β → List α)

/-- Everything below a node, in order. -/
def inorder (n : BtreeNode α β) : List α := content n.first ++ afterContent content n.rest

/-- What stands to the left of the child at a position. -/
def leftOf (n : BtreeNode α β) (p : ℕ) : List α := beforeContent content (n.openAt p).1.before

/-- What stands to the right of the child at a position. -/
def rightOf (n : BtreeNode α β) (p : ℕ) : List α := afterContent content (n.rest.drop p)

/-- What a node holds: its own values, and what its children hold. -/
theorem length_inorder (n : BtreeNode α β) :
    (inorder content n).length = n.count + (n.children.map fun c => (content c).length).sum := by
  unfold inorder children count
  rw [List.length_append, length_afterContent, List.map_cons, List.sum_cons, List.map_map]
  exact Nat.add_left_comm _ _ _

theorem inorder_closeFrom (before : List (β × α)) (c : β) (after : List (α × β)) :
    content (closeFrom before c after).1 ++ afterContent content (closeFrom before c after).2
      = beforeContent content before ++ content c ++ afterContent content after := by
  induction before generalizing c after with
  | nil => rfl
  | cons e before ih =>
      obtain ⟨c', v⟩ := e
      rw [closeFrom, ih, beforeContent_cons, afterContent_cons]
      simp only [List.append_assoc, List.cons_append, List.nil_append]

/-- A parent holds what stands before a child, what the child holds, and what stands after. -/
theorem inorder_close (parent : ParentNode α β) (c : β) :
    inorder content (parent.close c)
      = beforeContent content parent.before ++ content c ++ afterContent content parent.after :=
  inorder_closeFrom content parent.before c parent.after

/-- A node holds what is to the left of a position, below its child, and to its right. -/
theorem inorder_eq (n : BtreeNode α β) (p : ℕ) :
    inorder content n = leftOf content n p ++ content (n.child p) ++ rightOf content n p := by
  conv_lhs => rw [← close_openAt n p, inorder_close]
  rw [after_openAt]
  rfl

/-! ## Positions in a merged node -/

section Left

variable (n : BtreeNode α β) (v : α) (m : BtreeNode α β) {p : ℕ} (hp : p ≤ n.count)

include hp

theorem openAt_merge_left :
    (merge n v m).openAt p = ({ (n.openAt p).1 with
      after := (n.openAt p).1.after ++ (v, m.first) :: m.rest }, (n.openAt p).2) := by
  unfold openAt merge
  rw [openFrom_append _ _ _ _ _ hp]

theorem leftOf_merge_left : leftOf content (merge n v m) p = leftOf content n p := by
  unfold leftOf
  rw [openAt_merge_left n v m hp]

theorem child_merge_left : (merge n v m).child p = n.child p := by
  unfold child
  rw [openAt_merge_left n v m hp]

theorem rightOf_merge_left :
    rightOf content (merge n v m) p = rightOf content n p ++ v :: inorder content m := by
  unfold rightOf
  rw [← after_openAt, openAt_merge_left n v m hp]
  show afterContent content ((n.openAt p).1.after ++ (v, m.first) :: m.rest) = _
  rw [afterContent_append, after_openAt]
  rfl

end Left

section Right

variable (n : BtreeNode α β) (v : α) (m : BtreeNode α β) (p : ℕ)

theorem openFrom_merge_right :
    openFrom (n.count + 1 + p) [] n.first (n.rest ++ (v, m.first) :: m.rest) =
      openFrom p ((n.child n.count, v) :: (n.openAt n.count).1.before) m.first m.rest := by
  have hlen : n.count ≤ (n.rest ++ (v, m.first) :: m.rest).length := by
    rw [List.length_append]
    exact Nat.le_add_right _ _
  have hlast : (openFrom n.count [] n.first n.rest).2.2 = [] := by
    rw [openFrom_drop, count, List.drop_length]
  rw [Nat.add_assoc, openFrom_add _ _ _ _ (1 + p) hlen,
    openFrom_append _ _ _ _ n.count (Nat.le_refl n.rest.length), hlast, List.nil_append,
    Nat.add_comm 1 p]
  rfl

theorem leftOf_merge_right :
    leftOf content (merge n v m) (n.count + 1 + p)
      = inorder content n ++ v :: leftOf content m p := by
  have hn := inorder_eq content n n.count
  unfold rightOf at hn
  rw [count, List.drop_length, afterContent_nil, List.append_nil] at hn
  unfold leftOf
  show beforeContent content
    (openFrom (n.count + 1 + p) [] n.first (n.rest ++ (v, m.first) :: m.rest)).1 = _
  rw [openFrom_merge_right, openFrom_acc, beforeContent_append, beforeContent_cons, hn,
    List.append_assoc, List.singleton_append]
  rfl

theorem child_merge_right : (merge n v m).child (n.count + 1 + p) = m.child p := by
  show (openFrom (n.count + 1 + p) [] n.first (n.rest ++ (v, m.first) :: m.rest)).2.1 = _
  rw [openFrom_merge_right, openFrom_acc]
  rfl

theorem rightOf_merge_right :
    rightOf content (merge n v m) (n.count + 1 + p) = rightOf content m p := by
  unfold rightOf merge
  show afterContent content ((n.rest ++ (v, m.first) :: m.rest).drop (n.rest.length + 1 + p)) = _
  rw [Nat.add_assoc, List.drop_length_add_append, Nat.add_comm 1 p]
  rfl

end Right

/-! ## The places of the values -/

/-- What stands before the value at a position: all to its left and what the child there
holds. -/
def beforeValue (n : BtreeNode α β) (p : ℕ) : List α :=
  leftOf content n p ++ content (n.child p)

theorem openFrom_content (p : ℕ) (before : List (β × α)) (c : β) (rest : List (α × β)) :
    beforeContent content (openFrom p before c rest).1 ++ content (openFrom p before c rest).2.1
      = beforeContent content before ++ content c ++ afterContent content (rest.take p) := by
  induction p generalizing before c rest with
  | zero => exact (List.append_nil _).symm
  | succ p ih =>
      cases rest with
      | nil => exact (List.append_nil _).symm
      | cons e rest =>
          obtain ⟨v, c'⟩ := e
          rw [openFrom, ih, List.take_succ_cons, afterContent_cons, beforeContent_cons]
          simp only [List.append_assoc, List.cons_append, List.nil_append]

/-- What stands before a value, read off the node from its start. -/
theorem beforeValue_eq (n : BtreeNode α β) (p : ℕ) :
    beforeValue content n p = content n.first ++ afterContent content (n.rest.take p) :=
  openFrom_content content p [] n.first n.rest

theorem inorder_eq_value (n : BtreeNode α β) (p : ℕ) :
    inorder content n = beforeValue content n p ++ rightOf content n p := inorder_eq content n p

section Value

variable {n : BtreeNode α β} {p : ℕ} {v : α} {c : β} (h : n.rest[p]? = some (v, c))

include h

theorem drop_eq_cons : n.rest.drop p = (v, c) :: n.rest.drop (p + 1) := by
  obtain ⟨hp, hv⟩ := List.getElem?_eq_some_iff.mp h
  rw [List.drop_eq_getElem_cons hp, hv]

/-- At the position of a value the value itself comes next, then the child after it. -/
theorem rightOf_value :
    rightOf content n p = v :: (content c ++ rightOf content n (p + 1)) := by
  unfold rightOf
  rw [drop_eq_cons h, afterContent_cons]

/-- The child after a value. -/
theorem openFrom_succ (before : List (β × α)) (c₀ : β) :
    openFrom (p + 1) before c₀ n.rest =
      (((openFrom p before c₀ n.rest).2.1, v) :: (openFrom p before c₀ n.rest).1, c,
        n.rest.drop (p + 1)) := by
  obtain ⟨hp, _⟩ := List.getElem?_eq_some_iff.mp h
  rw [openFrom_add _ _ _ p 1 (Nat.le_of_lt hp), openFrom_drop, drop_eq_cons h]
  rfl

theorem child_succ : n.child (p + 1) = c := by
  show (openFrom (p + 1) [] n.first n.rest).2.1 = c
  rw [openFrom_succ h]

theorem leftOf_succ : leftOf content n (p + 1) = beforeValue content n p ++ [v] := by
  show beforeContent content (openFrom (p + 1) [] n.first n.rest).1 = _
  rw [openFrom_succ h]
  rfl

end Value

/-! ## Positions in a parent -/

theorem leftOf_close (parent : ParentNode α β) (c : β) :
    leftOf content (parent.close c) parent.position = beforeContent content parent.before := by
  unfold leftOf
  rw [openAt_close]

theorem child_close (parent : ParentNode α β) (c : β) :
    (parent.close c).child parent.position = c := by
  unfold child
  rw [openAt_close]

theorem beforeValue_close (parent : ParentNode α β) (c : β) :
    beforeValue content (parent.close c) parent.position
      = beforeContent content parent.before ++ content c := by
  unfold beforeValue
  rw [leftOf_close, child_close]

theorem rightOf_close (parent : ParentNode α β) (c : β) :
    rightOf content (parent.close c) parent.position = afterContent content parent.after := by
  unfold rightOf
  rw [← after_openAt, openAt_close]

theorem count_close (parent : ParentNode α β) (c : β) : (parent.close c).count = parent.count :=
  closeFrom_length parent.before c parent.after

theorem position_le_count (parent : ParentNode α β) (c : β) :
    parent.position ≤ (parent.close c).count := by
  rw [count_close]
  exact Nat.le_add_right _ _

/-- At its end a node has nothing to the right. -/
@[simp] theorem rightOf_count (n : BtreeNode α β) : rightOf content n n.count = [] := by
  unfold rightOf
  rw [count, List.drop_length]
  rfl

/-- Before its end stands all that a node holds. -/
@[simp] theorem beforeValue_count (n : BtreeNode α β) :
    beforeValue content n n.count = inorder content n := by
  rw [inorder_eq_value content n n.count, rightOf_count, List.append_nil]

/-! ## The children at the positions -/

theorem openFrom_children (p : ℕ) (before : List (β × α)) (c : β) (rest : List (α × β)) :
    ((openFrom p before c rest).1.map Prod.fst).reverse ++
        (openFrom p before c rest).2.1 :: (openFrom p before c rest).2.2.map Prod.snd
      = (before.map Prod.fst).reverse ++ c :: rest.map Prod.snd := by
  induction p generalizing before c rest with
  | zero => rfl
  | succ p ih =>
      cases rest with
      | nil => rfl
      | cons e rest =>
          rw [openFrom, ih]
          simp only [List.map_cons, List.reverse_cons, List.append_assoc, List.singleton_append]

/-- The children of a node, around one of them. -/
theorem children_eq (n : BtreeNode α β) (p : ℕ) :
    n.children = ((n.openAt p).1.before.map Prod.fst).reverse ++
      n.child p :: (n.openAt p).1.after.map Prod.snd :=
  (openFrom_children p [] n.first n.rest).symm

theorem children_close (parent : ParentNode α β) (c : β) :
    (parent.close c).children
      = (parent.before.map Prod.fst).reverse ++ c :: parent.after.map Prod.snd := by
  rw [children_eq (parent.close c) parent.position, child, openAt_close]

theorem child_mem (n : BtreeNode α β) (p : ℕ) : n.child p ∈ n.children := by
  rw [children_eq n p]
  exact List.mem_append_right _ List.mem_cons_self

end BtreeNode
