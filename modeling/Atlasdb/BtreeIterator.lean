/-
# Trees of nodes and their iterators (`storage/btree/btree.tcc`)

The nodes of a B-tree all of whose leaves are equally far down, and a pointer into such a
tree: a node with the nodes above it, as their children see them (`Ancestors`), which is what
`parent()` and `position()` of a node are for.  An iterator is such a node and a position in it,
and stands for a cut of the values of the tree: those before it (`Iterator.before`) and those from
it on (`Iterator.rest`).

* `increment_spec` : an iterator moves on by one value, whatever nodes it has to go through;
* `leftmost_spec`, `rightmost_spec`, `internalLast_spec` : the walks down to a leaf and up to a
  value leave what is before and after as it is.
-/
import Atlasdb.BtreeContent

namespace Btree

/-! ## Trees -/

/-- What stands below a node whose leaves are `h` levels down: nodes whose leaves are one
level less down, and nothing below a leaf. -/
@[reducible] def Child (α : Type) : ℕ → Type
  | 0 => Unit
  | h + 1 => BtreeNode α (Child α h)

/-- A node whose leaves are `h` levels down. -/
abbrev Node (α : Type) (h : ℕ) : Type := BtreeNode α (Child α h)

/-- The nodes from `root()` on. -/
structure Tree (α : Type) where
  height : ℕ
  root : Node α height

/-- What stands below a child, in order. -/
def content {α : Type} : (h : ℕ) → Child α h → List α
  | 0, _ => []
  | h + 1, n => BtreeNode.inorder (content h) n

/-- The values of a tree, in order. -/
def Tree.inorder {α : Type} (t : Tree α) : List α := BtreeNode.inorder (content t.height) t.root

/-- The nodes above a node, as the child below sees each of them; at the root there are none. -/
inductive Ancestors (α : Type) : ℕ → Type
  | root {h : ℕ} : Ancestors α h
  | child {h : ℕ} (parent : ParentNode α (Child α (h + 1))) (up : Ancestors α (h + 1)) :
      Ancestors α h

namespace Ancestors

variable {α : Type}

/-- The tree that has the node at this place. -/
def close : {h : ℕ} → Ancestors α h → Node α h → Tree α
  | h, root, n => ⟨h, n⟩
  | _, child parent up, n => close up (parent.close n)

/-- What stands before everything below the node. -/
def before : {h : ℕ} → Ancestors α h → List α
  | _, root => []
  | h, child parent up => up.before ++ beforeContent (content (h + 1)) parent.before

/-- What stands after everything below the node. -/
def after : {h : ℕ} → Ancestors α h → List α
  | _, root => []
  | h, child parent up => afterContent (content (h + 1)) parent.after ++ up.after

theorem before_under {h : ℕ} (parent : ParentNode α (Child α (h + 1))) (up : Ancestors α (h + 1)) :
    (child parent up).before = up.before ++ beforeContent (content (h + 1)) parent.before := rfl

theorem after_under {h : ℕ} (parent : ParentNode α (Child α (h + 1))) (up : Ancestors α (h + 1)) :
    (child parent up).after = afterContent (content (h + 1)) parent.after ++ up.after := rfl

theorem child_ne_root {h : ℕ} (parent : ParentNode α (Child α (h + 1))) (up : Ancestors α (h + 1)) :
    child parent up ≠ root := by
  intro h
  cases h

/-- The values of a tree, around those of one of its nodes. -/
theorem inorder_close {h : ℕ} (up : Ancestors α h) (n : Node α h) :
    (up.close n).inorder = up.before ++ BtreeNode.inorder (content h) n ++ up.after := by
  induction up with
  | root =>
      rw [before, after, List.nil_append, List.append_nil]
      rfl
  | @child h parent up ih =>
      rw [close, ih, BtreeNode.inorder_close, before, after]
      simp only [List.append_assoc]
      rfl

end Ancestors

/-! ## Iterators -/

/-- `btree_iterator`: a node, found below its ancestors, and a position in it. -/
structure Iterator (α : Type) where
  height : ℕ
  node : Node α height
  position : ℕ
  up : Ancestors α height

section Moves

variable {α : Type}

/-- The loop that leaves a node at its end: up to the first ancestor that has a value after the
node it came from (`internal_last`, and the loop of `increment_slow`). -/
def internalLast : {h : ℕ} → Node α h → ℕ → Ancestors α h → Option (Iterator α)
  | h, node, position, .root =>
      if position = node.count then none else some ⟨h, node, position, .root⟩
  | h, node, position, .child parent up =>
      if position = node.count then internalLast (parent.close node) parent.position up
      else some ⟨h, node, position, .child parent up⟩

/-- The loop of `decrement_slow`, with `position + 1`: up to the first ancestor that has a value
before the node it came from. -/
def internalFirst : {h : ℕ} → Node α h → ℕ → Ancestors α h → Option (Iterator α)
  | _, _, 0, .root => none
  | h, node, position + 1, .root => some ⟨h, node, position, .root⟩
  | _, node, 0, .child parent up => internalFirst (parent.close node) parent.position up
  | h, node, position + 1, .child parent up => some ⟨h, node, position, .child parent up⟩

/-- Down to the leftmost leaf, at its first position. -/
def leftmost : (h : ℕ) → Node α h → Ancestors α h → Iterator α
  | 0, node, up => ⟨0, node, 0, up⟩
  | h + 1, node, up => leftmost h (node.child 0) (.child (node.openAt 0).1 up)

/-- Down to the rightmost leaf, at its end. -/
def rightmost : (h : ℕ) → Node α h → Ancestors α h → Iterator α
  | 0, node, up => ⟨0, node, node.count, up⟩
  | h + 1, node, up => rightmost h (node.child node.count) (.child (node.openAt node.count).1 up)

/-- `increment_slow` -/
def incrementSlow : Iterator α → Iterator α
  | ⟨0, node, position, up⟩ => (internalLast node position up).getD ⟨0, node, position, up⟩
  | ⟨h + 1, node, position, up⟩ =>
      leftmost h (node.child (position + 1)) (.child (node.openAt (position + 1)).1 up)

/-- `increment` -/
def increment : Iterator α → Iterator α
  | ⟨0, node, position, up⟩ =>
      if position + 1 < node.count then ⟨0, node, position + 1, up⟩
      else incrementSlow ⟨0, node, position + 1, up⟩
  | ⟨h + 1, node, position, up⟩ => incrementSlow ⟨h + 1, node, position, up⟩

theorem increment_leaf (node : Node α 0) (p : ℕ) (up : Ancestors α 0) :
    increment ⟨0, node, p, up⟩ =
      if p + 1 < node.count then ⟨0, node, p + 1, up⟩ else incrementSlow ⟨0, node, p + 1, up⟩ := rfl

theorem increment_internal (h : ℕ) (node : Node α (h + 1)) (p : ℕ) (up : Ancestors α (h + 1)) :
    increment ⟨h + 1, node, p, up⟩ =
      leftmost h (node.child (p + 1)) (.child (node.openAt (p + 1)).1 up) := rfl

/-- `decrement`, `none` where the iterator is left at position `-1`, before the first value. -/
def decrement : Iterator α → Option (Iterator α)
  | ⟨0, node, position + 1, up⟩ => some ⟨0, node, position, up⟩
  | ⟨0, node, 0, up⟩ => internalFirst node 0 up
  | ⟨h + 1, node, position, up⟩ =>
      let last := rightmost h (node.child position) (.child (node.openAt position).1 up)
      some { last with position := last.position - 1 }

theorem decrement_leaf_zero (node : Node α 0) (up : Ancestors α 0) :
    decrement ⟨0, node, 0, up⟩ = internalFirst node 0 up := rfl

theorem decrement_internal (h : ℕ) (node : Node α (h + 1)) (p : ℕ) (up : Ancestors α (h + 1)) :
    decrement ⟨h + 1, node, p, up⟩ =
      some { rightmost h (node.child p) (.child (node.openAt p).1 up) with
        position := (rightmost h (node.child p) (.child (node.openAt p).1 up)).position - 1 } := rfl

end Moves

namespace Tree

variable {α : Type} (t : Tree α)

/-- `begin()` -/
def begin : Iterator α := leftmost t.height t.root .root

/-- `end()` -/
def end_ : Iterator α := rightmost t.height t.root .root

end Tree

namespace Iterator

variable {α : Type} (it : Iterator α)

/-- The tree that the iterator points into. -/
def tree : Tree α := it.up.close it.node

/-- The values before the iterator. -/
def before : List α := it.up.before ++ BtreeNode.beforeValue (content it.height) it.node it.position

/-- The values from the iterator on. -/
def rest : List α := BtreeNode.rightOf (content it.height) it.node it.position ++ it.up.after

/-- The iterator points at a value. -/
def Pointing : Prop := it.position < it.node.count

instance : Decidable it.Pointing := inferInstanceAs (Decidable (_ < _))

/-- `*iter` -/
def value? : Option α := (it.node.rest[it.position]?).map Prod.fst

theorem before_mk (h : ℕ) (node : Node α h) (p : ℕ) (up : Ancestors α h) :
    (⟨h, node, p, up⟩ : Iterator α).before
      = up.before ++ BtreeNode.beforeValue (content h) node p := rfl

theorem rest_mk (h : ℕ) (node : Node α h) (p : ℕ) (up : Ancestors α h) :
    (⟨h, node, p, up⟩ : Iterator α).rest = BtreeNode.rightOf (content h) node p ++ up.after := rfl

theorem inorder_tree : it.tree.inorder = it.before ++ it.rest := by
  unfold tree before rest
  rw [Ancestors.inorder_close, BtreeNode.inorder_eq_value (content it.height) it.node it.position]
  simp only [List.append_assoc]

variable {it}

/-- What a pointing iterator points at: a value, and the child after it. -/
theorem Pointing.entry (h : it.Pointing) :
    ∃ v c, it.node.rest[it.position]? = some (v, c) ∧ it.value? = some v := by
  have hget : it.node.rest[it.position]? = some it.node.rest[it.position] :=
    List.getElem?_eq_getElem h
  refine ⟨(it.node.rest[it.position]).1, (it.node.rest[it.position]).2, hget, ?_⟩
  unfold value?
  rw [hget]
  rfl

/-- The value pointed at is the first one from the iterator on. -/
theorem rest_of_value? {v : α} (h : it.value? = some v) : ∃ tail, it.rest = v :: tail := by
  unfold value? at h
  obtain ⟨⟨v', c⟩, hvc, rfl⟩ := Option.map_eq_some_iff.mp h
  unfold rest
  rw [BtreeNode.rightOf_value _ hvc]
  exact ⟨_, rfl⟩

theorem Pointing.of_value? {v : α} (h : it.value? = some v) : it.Pointing := by
  unfold value? at h
  obtain ⟨e, he, -⟩ := Option.map_eq_some_iff.mp h
  exact (List.getElem?_eq_some_iff.mp he).1

/-- The value pointed at is one of the tree. -/
theorem mem_of_value? {v : α} (h : it.value? = some v) : v ∈ it.tree.inorder := by
  obtain ⟨tail, hrest⟩ := rest_of_value? h
  rw [inorder_tree, hrest]
  exact List.mem_append_right _ List.mem_cons_self

end Iterator

section Descent

variable {α : Type} {h : ℕ} (node : Node α (h + 1)) (p : ℕ) (up : Ancestors α (h + 1))

/-- The ancestors of a child: what is to its left in the node comes before. -/
theorem before_child :
    (Ancestors.child (node.openAt p).1 up).before
      = up.before ++ BtreeNode.leftOf (content (h + 1)) node p := rfl

theorem after_child :
    (Ancestors.child (node.openAt p).1 up).after
      = BtreeNode.rightOf (content (h + 1)) node p ++ up.after := by
  rw [Ancestors.after, BtreeNode.after_openAt]
  rfl

theorem close_child :
    (Ancestors.child (node.openAt p).1 up).close (node.child p) = up.close node := by
  rw [Ancestors.close, BtreeNode.close_openAt]

end Descent

section Specs

variable {α : Type}

/-- Leaving nodes at their end changes nothing of what is before and after. -/
theorem internalLast_spec {h : ℕ} (node : Node α h) (position : ℕ) (up : Ancestors α h)
    (hp : position ≤ node.count) :
    match internalLast node position up with
    | none => (⟨h, node, position, up⟩ : Iterator α).rest = []
    | some it => it.tree = up.close node ∧ it.Pointing ∧
        it.before = (⟨h, node, position, up⟩ : Iterator α).before ∧
        it.rest = (⟨h, node, position, up⟩ : Iterator α).rest := by
  induction up generalizing position with
  | root =>
      unfold internalLast
      by_cases hend : position = node.count
      · rw [if_pos hend]
        subst hend
        show BtreeNode.rightOf _ node node.count ++ [] = []
        rw [BtreeNode.rightOf_count, List.nil_append]
      · rw [if_neg hend]
        exact ⟨rfl, Nat.lt_of_le_of_ne hp hend, rfl, rfl⟩
  | @child h parent up ih =>
      unfold internalLast
      by_cases hend : position = node.count
      · rw [if_pos hend]
        subst hend
        have hbefore : (⟨h + 1, parent.close node, parent.position, up⟩ : Iterator α).before
            = (⟨h, node, node.count, .child parent up⟩ : Iterator α).before := by
          unfold Iterator.before
          rw [BtreeNode.beforeValue_close, BtreeNode.beforeValue_count, ← List.append_assoc]
          rfl
        have hrest : (⟨h + 1, parent.close node, parent.position, up⟩ : Iterator α).rest
            = (⟨h, node, node.count, .child parent up⟩ : Iterator α).rest := by
          unfold Iterator.rest
          rw [BtreeNode.rightOf_close, BtreeNode.rightOf_count, List.nil_append]
          rfl
        have hstep := ih (parent.close node) parent.position
          (BtreeNode.position_le_count parent node)
        rw [hbefore, hrest] at hstep
        exact hstep
      · rw [if_neg hend]
        exact ⟨rfl, Nat.lt_of_le_of_ne hp hend, rfl, rfl⟩

theorem leftmost_spec (h : ℕ) (node : Node α h) (up : Ancestors α h) :
    (leftmost h node up).tree = up.close node ∧ (leftmost h node up).before = up.before ∧
      (leftmost h node up).rest = BtreeNode.inorder (content h) node ++ up.after := by
  induction h with
  | zero => exact ⟨rfl, List.append_nil _, rfl⟩
  | succ h ih =>
      obtain ⟨htree, hbefore, hrest⟩ := ih (node.child 0) (.child (node.openAt 0).1 up)
      rw [close_child] at htree
      rw [before_child] at hbefore
      rw [after_child, ← List.append_assoc] at hrest
      exact ⟨htree, hbefore.trans (List.append_nil _), hrest⟩

theorem rightmost_spec (h : ℕ) (node : Node α h) (up : Ancestors α h) :
    (rightmost h node up).tree = up.close node ∧
      (rightmost h node up).before = up.before ++ BtreeNode.inorder (content h) node ∧
      (rightmost h node up).rest = up.after ∧ (rightmost h node up).height = 0 ∧
      (rightmost h node up).position = (rightmost h node up).node.count := by
  induction h with
  | zero =>
      refine ⟨rfl, ?_, ?_, rfl, rfl⟩
      · show up.before ++ BtreeNode.beforeValue (content 0) node node.count = _
        rw [BtreeNode.beforeValue_count]
      · show BtreeNode.rightOf (content 0) node node.count ++ up.after = _
        rw [BtreeNode.rightOf_count, List.nil_append]
  | succ h ih =>
      obtain ⟨htree, hbefore, hrest, hpos⟩ :=
        ih (node.child node.count) (.child (node.openAt node.count).1 up)
      rw [close_child] at htree
      rw [after_child, BtreeNode.rightOf_count, List.nil_append] at hrest
      refine ⟨htree, hbefore.trans ?_, hrest, hpos⟩
      rw [before_child, List.append_assoc]
      congr 1
      rw [BtreeNode.inorder_eq (content (h + 1)) node node.count, BtreeNode.rightOf_count,
        List.append_nil]
      rfl

/-- The value at a position stands to the left of the next position, and that position's child
comes after it. -/
theorem value_step {h : ℕ} {node : Node α h} {p : ℕ} (up : Ancestors α h) (hp : p < node.count) :
    ∃ v, (⟨h, node, p, up⟩ : Iterator α).value? = some v ∧
      up.before ++ BtreeNode.leftOf (content h) node (p + 1)
        = (⟨h, node, p, up⟩ : Iterator α).before ++ [v] ∧
      (⟨h, node, p, up⟩ : Iterator α).rest = v :: (content h (node.child (p + 1)) ++
        BtreeNode.rightOf (content h) node (p + 1) ++ up.after) := by
  have hpoint : (⟨h, node, p, up⟩ : Iterator α).Pointing := hp
  obtain ⟨v, c, hentry, hv⟩ := hpoint.entry
  change node.rest[p]? = some (v, c) at hentry
  refine ⟨v, hv, ?_, ?_⟩
  · rw [BtreeNode.leftOf_succ _ hentry, Iterator.before_mk, List.append_assoc]
  · rw [Iterator.rest_mk, BtreeNode.rightOf_value _ hentry, BtreeNode.child_succ hentry]
    rfl

/-- In a leaf the next position is the next cut. -/
theorem leaf_step {node : Node α 0} {p : ℕ} (up : Ancestors α 0) (hp : p < node.count) :
    ∃ v, (⟨0, node, p, up⟩ : Iterator α).value? = some v ∧
      (⟨0, node, p + 1, up⟩ : Iterator α).before
        = (⟨0, node, p, up⟩ : Iterator α).before ++ [v] ∧
      (⟨0, node, p, up⟩ : Iterator α).rest
        = v :: (⟨0, node, p + 1, up⟩ : Iterator α).rest := by
  obtain ⟨v, hv, hb, hr⟩ := value_step up hp
  refine ⟨v, hv, ?_, hr⟩
  rw [← hb, Iterator.before_mk]
  exact congrArg (up.before ++ ·) (List.append_nil _)

/-- `increment_slow` at the end of a leaf: up to the next value, or left where it is. -/
theorem incrementSlow_leaf (node : Node α 0) {p : ℕ} (up : Ancestors α 0) (hp : p ≤ node.count) :
    (incrementSlow ⟨0, node, p, up⟩).tree = up.close node ∧
      (incrementSlow ⟨0, node, p, up⟩).before = (⟨0, node, p, up⟩ : Iterator α).before ∧
      (incrementSlow ⟨0, node, p, up⟩).rest = (⟨0, node, p, up⟩ : Iterator α).rest := by
  have hspec := internalLast_spec node p up hp
  show ((internalLast node p up).getD ⟨0, node, p, up⟩).tree = _ ∧
    ((internalLast node p up).getD ⟨0, node, p, up⟩).before = _ ∧
    ((internalLast node p up).getD ⟨0, node, p, up⟩).rest = _
  cases hlast : internalLast node p up with
  | none => exact ⟨rfl, rfl, rfl⟩
  | some it =>
      rw [hlast] at hspec
      exact ⟨hspec.1, hspec.2.2.1, hspec.2.2.2⟩

/-- **One step forward**, whatever nodes lie in between: the value pointed at goes to those
before the iterator. -/
theorem increment_spec {it : Iterator α} {v : α} (hv : it.value? = some v) :
    (increment it).tree = it.tree ∧ (increment it).before = it.before ++ [v] ∧
      it.rest = v :: (increment it).rest := by
  obtain ⟨h, node, position, up⟩ := it
  have hp : position < node.count := Iterator.Pointing.of_value? hv
  cases h with
  | zero =>
      obtain ⟨w, hw, hb, hr⟩ := leaf_step up hp
      obtain rfl := Option.some.inj (hv.symm.trans hw)
      by_cases hin : position + 1 < node.count
      · rw [increment_leaf, if_pos hin]
        exact ⟨rfl, hb, hr⟩
      · rw [increment_leaf, if_neg hin]
        obtain ⟨ht, hb', hr'⟩ := incrementSlow_leaf node up (Nat.succ_le_of_lt hp)
        exact ⟨ht, hb'.trans hb, hr.trans (congrArg (v :: ·) hr'.symm)⟩
  | succ h =>
      obtain ⟨w, c, hentry, hw⟩ := (Iterator.Pointing.of_value? hv).entry
      obtain rfl := Option.some.inj (hv.symm.trans hw)
      change node.rest[position]? = some (v, c) at hentry
      obtain rfl := BtreeNode.child_succ hentry
      obtain ⟨htree, hb, hr⟩ :=
        leftmost_spec h (node.child (position + 1)) (.child (node.openAt (position + 1)).1 up)
      rw [close_child] at htree
      rw [before_child, BtreeNode.leftOf_succ (content (h + 1)) hentry, ← List.append_assoc] at hb
      rw [after_child, ← List.append_assoc] at hr
      rw [increment_internal, Iterator.rest_mk, BtreeNode.rightOf_value (content (h + 1)) hentry]
      exact ⟨htree, hb, congrArg (v :: ·) hr.symm⟩

end Specs

end Btree
