/-
# The invariant of a B-tree

Every node but the root has between one value and `kNodeValues` values and room for
`kNodeValues`; a root that is a leaf may be smaller.  Seen from a node inside the tree the
invariant is that of the node and that of its ancestors (`rootOk_close_child`), which is how the
operations use it and give it back.  On such trees every iterator but the end points at a value:

* `decrement_spec` : a step back undoes a step forward, and fails only at the first value;
* `increment_normal` : after a step forward the iterator points at a value or has nothing left;
* `incrementBy_eq` : `increment_by` is as many increments.
-/
import Atlasdb.BtreeIterator

namespace Btree

/-! ## Nodes with enough values and not too many -/

/-- A node other than the root. -/
structure NodeOk {α β : Type} (K : ℕ) (childOk : β → Prop) (n : BtreeNode α β) : Prop where
  pos : 1 ≤ n.count
  le : n.count ≤ K
  max : n.maxCount = K
  children : ∀ c ∈ n.children, childOk c

/-- A parent without one of its children. -/
structure ParentOk {α β : Type} (K : ℕ) (childOk : β → Prop) (parent : ParentNode α β) : Prop where
  pos : 1 ≤ parent.count
  le : parent.count ≤ K
  max : parent.maxCount = K
  before : ∀ e ∈ parent.before, childOk e.1
  after : ∀ e ∈ parent.after, childOk e.2

/-- A child and all nodes below it. -/
def ChildOk {α : Type} (K : ℕ) : (h : ℕ) → Child α h → Prop
  | 0, _ => True
  | h + 1, n => NodeOk K (ChildOk K h) n

/-- A whole tree. -/
structure RootOk {α : Type} (K : ℕ) (t : Tree α) : Prop where
  pos : 1 ≤ t.root.count
  le : t.root.count ≤ t.root.maxCount
  max : t.root.maxCount ≤ K
  internal : t.height ≠ 0 → t.root.maxCount = K
  children : ∀ c ∈ t.root.children, ChildOk K t.height c

/-- Three leaves of a small set under one root. -/
def smallTree : Tree ℤ :=
  ⟨1, ⟨3, .smallLeaf [1, 2], [(3, .smallLeaf [4, 5, 6]), (7, .smallLeaf [8])]⟩⟩

/-- The same numbers in other leaves. -/
def regroupedTree : Tree ℤ :=
  ⟨1, ⟨3, .smallLeaf [1, 2, 3], [(4, .smallLeaf [5]), (6, .smallLeaf [7, 8])]⟩⟩

theorem childOk_smallLeaf {l : List ℤ} (hpos : 0 < l.length) (hle : l.length ≤ 3) :
    ChildOk 3 1 (BtreeNode.smallLeaf l) := by
  have hcount : (BtreeNode.smallLeaf l).count = l.length := List.length_map _
  exact ⟨hcount ▸ hpos, hcount ▸ hle, rfl, fun _ _ => trivial⟩

theorem smallTree_ok : RootOk 3 smallTree := by
  refine ⟨by decide, by decide, by decide, fun _ => rfl, ?_⟩
  rw [smallTree]
  simp [BtreeNode.children, childOk_smallLeaf]

theorem regroupedTree_ok : RootOk 3 regroupedTree := by
  refine ⟨by decide, by decide, by decide, fun _ => rfl, ?_⟩
  rw [regroupedTree]
  simp [BtreeNode.children, childOk_smallLeaf]

/-- All nodes above a node, and all nodes below these but not below the node. -/
def AncestorsOk {α : Type} (K : ℕ) : {h : ℕ} → Ancestors α h → Prop
  | _, .root => True
  | h, .child parent up => ParentOk K (ChildOk K (h + 1)) parent ∧ AncestorsOk K up

section Invariant

variable {α β : Type} {K : ℕ}

/-- A parent with a child in its place. -/
theorem nodeOk_close {childOk : β → Prop} {parent : ParentNode α β} {c : β} :
    NodeOk K childOk (parent.close c) ↔ ParentOk K childOk parent ∧ childOk c := by
  have hchildren := BtreeNode.children_close parent c
  have hcount := BtreeNode.count_close parent c
  constructor
  · rintro ⟨hpos, hle, hmax, hall⟩
    rw [hchildren] at hall
    rw [hcount] at hpos hle
    refine ⟨⟨hpos, hle, hmax, fun e he => ?_, fun e he => ?_⟩, ?_⟩
    · exact hall e.1 (List.mem_append_left _ (List.mem_reverse.mpr (List.mem_map_of_mem he)))
    · exact hall e.2 (List.mem_append_right _ (List.mem_cons_of_mem _ (List.mem_map_of_mem he)))
    · exact hall c (List.mem_append_right _ List.mem_cons_self)
  · rintro ⟨⟨hpos, hle, hmax, hbefore, hafter⟩, hc⟩
    refine ⟨by rw [hcount]; exact hpos, by rw [hcount]; exact hle, hmax, ?_⟩
    rw [hchildren]
    intro c' hc'
    rcases List.mem_append.mp hc' with hc' | hc'
    · obtain ⟨e, he, rfl⟩ := List.mem_map.mp (List.mem_reverse.mp hc')
      exact hbefore e he
    · rcases List.mem_cons.mp hc' with rfl | hc'
      · exact hc
      · obtain ⟨e, he, rfl⟩ := List.mem_map.mp hc'
        exact hafter e he

/-- The children of a node opened at one of them. -/
theorem openAt_children {childOk : β → Prop} {n : BtreeNode α β} (p : ℕ)
    (h : ∀ c ∈ n.children, childOk c) :
    (∀ e ∈ (n.openAt p).1.before, childOk e.1) ∧ (∀ e ∈ (n.openAt p).1.after, childOk e.2) := by
  rw [BtreeNode.children_eq n p] at h
  constructor
  · intro e he
    exact h e.1 (List.mem_append_left _ (List.mem_reverse.mpr (List.mem_map_of_mem he)))
  · intro e he
    exact h e.2 (List.mem_append_right _ (List.mem_cons_of_mem _ (List.mem_map_of_mem he)))

/-- Above the leaves the root is a node like the others. -/
theorem rootOk_succ {h : ℕ} {n : Node α (h + 1)} :
    RootOk K (⟨h + 1, n⟩ : Tree α) ↔ NodeOk K (ChildOk K (h + 1)) n := by
  constructor
  · rintro ⟨hpos, hle, hmax, hinternal, hall⟩
    have hK : n.maxCount = K := hinternal (Nat.succ_ne_zero h)
    exact ⟨hpos, hle.trans_eq hK, hK, hall⟩
  · rintro ⟨hpos, hle, hmax, hall⟩
    exact ⟨hpos, hle.trans_eq hmax.symm, hmax.le, fun _ => hmax, hall⟩

/-- **The invariant of a tree seen from one of its nodes** below the root. -/
theorem rootOk_close_child : {h : ℕ} → (parent : ParentNode α (Child α (h + 1))) →
    (up : Ancestors α (h + 1)) → (n : Node α h) →
    (RootOk K ((Ancestors.child parent up).close n) ↔
      NodeOk K (ChildOk K h) n ∧ AncestorsOk K (.child parent up))
  | h, parent, .root, n => by
      rw [Ancestors.close, Ancestors.close, rootOk_succ, nodeOk_close]
      constructor
      · rintro ⟨hparent, hn⟩
        exact ⟨hn, hparent, trivial⟩
      · rintro ⟨hn, hparent, -⟩
        exact ⟨hparent, hn⟩
  | h, parent, .child parent' up, n => by
      rw [Ancestors.close, rootOk_close_child parent' up (parent.close n), nodeOk_close]
      constructor
      · rintro ⟨⟨hparent, hn⟩, hup⟩
        exact ⟨hn, hparent, hup⟩
      · rintro ⟨hn, hparent, hup⟩
        exact ⟨⟨hparent, hn⟩, hup⟩

/-- What the invariant says of a node and its ancestors, wherever the node is. -/
structure FocusOk {h : ℕ} (K : ℕ) (n : Node α h) (up : Ancestors α h) : Prop where
  pos : 1 ≤ n.count
  le : n.count ≤ n.maxCount
  max : n.maxCount ≤ K
  children : ∀ c ∈ n.children, ChildOk K h c
  up : AncestorsOk K up

theorem RootOk.focus {h : ℕ} {up : Ancestors α h} {n : Node α h} (hok : RootOk K (up.close n)) :
    FocusOk K n up := by
  cases up with
  | root => exact ⟨hok.pos, hok.le, hok.max, hok.children, trivial⟩
  | child parent up =>
      obtain ⟨hn, hup⟩ := (rootOk_close_child parent up n).mp hok
      exact ⟨hn.pos, hn.le.trans_eq hn.max.symm, hn.max.le, hn.children, hup⟩

end Invariant

/-! ## Leaves have values -/

section Leaves

variable {α : Type} {K : ℕ}

theorem leftmost_pointing : (h : ℕ) → (n : Node α h) → (up : Ancestors α h) → 1 ≤ n.count →
    (∀ c ∈ n.children, ChildOk K h c) → (leftmost h n up).Pointing
  | 0, _, _, hpos, _ => hpos
  | h + 1, n, up, _, hall => by
      have hchild : NodeOk K (ChildOk K h) (n.child 0) := hall _ (BtreeNode.child_mem n 0)
      exact leftmost_pointing h (n.child 0) (.child (n.openAt 0).1 up) hchild.pos hchild.children

theorem rightmost_pos : (h : ℕ) → (n : Node α h) → (up : Ancestors α h) → 1 ≤ n.count →
    (∀ c ∈ n.children, ChildOk K h c) → 1 ≤ (rightmost h n up).position
  | 0, _, _, hpos, _ => hpos
  | h + 1, n, up, _, hall => by
      have hchild : NodeOk K (ChildOk K h) (n.child n.count) :=
        hall _ (BtreeNode.child_mem n n.count)
      exact rightmost_pos h (n.child n.count) (.child (n.openAt n.count).1 up) hchild.pos
        hchild.children

end Leaves

/-! ## Iterators of a tree in order -/

section Steps

variable {α : Type} {K : ℕ}

/-- An iterator that has values from it on points at the first of them. -/
def Iterator.Normal (it : Iterator α) : Prop := it.rest ≠ [] → it.Pointing

theorem Iterator.Normal.value? {it : Iterator α} (hn : it.Normal) {v : α} {tail : List α}
    (hrest : it.rest = v :: tail) : it.value? = some v := by
  obtain ⟨w, c, -, hw⟩ := (hn (by rw [hrest]; exact List.cons_ne_nil v tail)).entry
  obtain ⟨tail', hrest'⟩ := Iterator.rest_of_value? hw
  rw [hrest'] at hrest
  rw [hw, (List.cons.inj hrest).1]

theorem incrementSlow_normal (node : Node α 0) {p : ℕ} (up : Ancestors α 0)
    (hp : p ≤ node.count) : (incrementSlow ⟨0, node, p, up⟩).Normal := by
  have hspec := internalLast_spec node p up hp
  show ((internalLast node p up).getD ⟨0, node, p, up⟩).Normal
  cases hlast : internalLast node p up with
  | none =>
      rw [hlast] at hspec
      exact fun hrest => absurd hspec hrest
  | some it =>
      rw [hlast] at hspec
      exact fun _ => hspec.2.1

/-- After a step forward the iterator points at a value, or there is none left. -/
theorem increment_normal {it : Iterator α} (hok : RootOk K it.tree) (hp : it.Pointing) :
    (increment it).Normal := by
  obtain ⟨h, node, position, up⟩ := it
  have hfocus : FocusOk K node up := hok.focus
  cases h with
  | zero =>
      by_cases hin : position + 1 < node.count
      · rw [increment_leaf, if_pos hin]
        exact fun _ => hin
      · rw [increment_leaf, if_neg hin]
        exact incrementSlow_normal node up hp
  | succ h =>
      have hchild : NodeOk K (ChildOk K h) (node.child (position + 1)) :=
        hfocus.children _ (BtreeNode.child_mem node (position + 1))
      rw [increment_internal]
      exact fun _ => leftmost_pointing h _ _ hchild.pos hchild.children

/-- `begin()` -/
theorem begin_spec {t : Tree α} (hok : RootOk K t) :
    t.begin.tree = t ∧ t.begin.before = [] ∧ t.begin.rest = t.inorder ∧ t.begin.Normal := by
  obtain ⟨htree, hbefore, hrest⟩ := leftmost_spec t.height t.root .root
  rw [Ancestors.after, List.append_nil] at hrest
  exact ⟨htree, hbefore, hrest, fun _ => leftmost_pointing _ _ _ hok.pos hok.children⟩

/-- `end()` -/
theorem end_spec (t : Tree α) :
    t.end_.tree = t ∧ t.end_.before = t.inorder ∧ t.end_.rest = [] ∧ t.end_.Normal := by
  obtain ⟨htree, hbefore, hrest, -⟩ := rightmost_spec t.height t.root .root
  exact ⟨htree, hbefore, hrest, fun h => absurd hrest h⟩

/-- The iterators of a tree: those that point at a value, and the end. -/
def Iterator.Valid (it : Iterator α) : Prop := it.Pointing ∨ it = it.tree.end_

theorem end_valid (t : Tree α) : t.end_.Valid := Or.inr (by rw [(end_spec t).1])

/-- At the end there is no value. -/
theorem end_value? (t : Tree α) : t.end_.value? = none := by
  cases hv : t.end_.value? with
  | none => rfl
  | some w =>
      obtain ⟨tail, htail⟩ := Iterator.rest_of_value? hv
      rw [(end_spec t).2.2.1] at htail
      cases htail

theorem Iterator.Valid.normal {it : Iterator α} (hv : it.Valid) : it.Normal := by
  rcases hv with hp | hend
  · exact fun _ => hp
  · rw [hend]
    exact (end_spec it.tree).2.2.2

/-- Leaving a node at its start changes nothing of what is before and after. -/
theorem internalFirst_spec {h : ℕ} (node : Node α h) (position : ℕ) (up : Ancestors α h)
    (hp : position ≤ node.count) :
    match internalFirst node position up with
    | none => up.before ++ BtreeNode.leftOf (content h) node position = []
    | some it => it.tree = up.close node ∧ ∃ v, it.value? = some v ∧
        up.before ++ BtreeNode.leftOf (content h) node position = it.before ++ [v] ∧
        it.rest = v :: (content h (node.child position) ++
          BtreeNode.rightOf (content h) node position ++ up.after) := by
  induction up generalizing position with
  | root =>
      cases position with
      | zero => rfl
      | succ p => exact ⟨rfl, value_step .root hp⟩
  | @child h parent up ih =>
      cases position with
      | zero =>
          -- at the start of the node the place is the node's own in its parent
          have hstep := ih (parent.close node) parent.position
            (BtreeNode.position_le_count parent node)
          rw [BtreeNode.leftOf_close, BtreeNode.child_close, BtreeNode.rightOf_close] at hstep
          unfold internalFirst
          cases hfirst : internalFirst (parent.close node) parent.position up with
          | none =>
              rw [hfirst] at hstep
              exact (List.append_nil _).trans hstep
          | some it =>
              rw [hfirst] at hstep
              obtain ⟨htree, v, hv, hbefore, hrest⟩ := hstep
              refine ⟨htree, v, hv, (List.append_nil _).trans hbefore, hrest.trans ?_⟩
              rw [Ancestors.after, ← List.append_assoc]
              rfl
      | succ p => exact ⟨rfl, value_step (.child parent up) hp⟩

/-- **One step back**: the last value before the iterator is the one it then points at, and only at
the first value there is no step back. -/
theorem decrement_spec {it : Iterator α} (hok : RootOk K it.tree)
    (hp : it.position ≤ it.node.count) :
    match decrement it with
    | none => it.before = []
    | some it' => it'.tree = it.tree ∧ ∃ v, it'.value? = some v ∧
        it.before = it'.before ++ [v] ∧ it'.rest = v :: it.rest := by
  obtain ⟨h, node, position, up⟩ := it
  have hfocus : FocusOk K node up := hok.focus
  cases h with
  | zero =>
      cases position with
      | zero =>
          have hspec := internalFirst_spec node 0 up (Nat.zero_le _)
          have hbefore : up.before ++ BtreeNode.leftOf (content 0) node 0
              = (⟨0, node, 0, up⟩ : Iterator α).before := rfl
          rw [hbefore] at hspec
          rw [decrement_leaf_zero]
          exact hspec
      | succ p =>
          obtain ⟨v, hv, hb, hr⟩ := leaf_step up (Nat.lt_of_succ_le hp)
          exact ⟨rfl, v, hv, hb, hr⟩
  | succ h =>
      have hchild : NodeOk K (ChildOk K h) (node.child position) :=
        hfocus.children _ (BtreeNode.child_mem node position)
      have hpos := rightmost_pos h (node.child position) (.child (node.openAt position).1 up)
        hchild.pos hchild.children
      obtain ⟨htree, hb, hr, hzero, hcount⟩ :=
        rightmost_spec h (node.child position) (.child (node.openAt position).1 up)
      rw [close_child] at htree
      rw [before_child] at hb
      rw [after_child] at hr
      rw [decrement_internal]
      generalize rightmost h (node.child position) (.child (node.openAt position).1 up) = last at *
      obtain ⟨h', leaf, q, up'⟩ := last
      obtain rfl : h' = 0 := hzero
      obtain ⟨p, rfl⟩ : ∃ p, q = p + 1 := ⟨q - 1, by change 1 ≤ q at hpos; omega⟩
      -- the last value of the leaf is the one before the value of the internal node
      obtain ⟨v, hv, hb', hr'⟩ := leaf_step up' (Nat.lt_of_succ_le (le_of_eq hcount))
      refine ⟨htree, v, hv, ?_, hr'.trans (congrArg (v :: ·) hr)⟩
      refine Eq.trans ?_ hb'
      rw [hb, List.append_assoc]
      rfl

/-- **Walking on**: `j` steps forward take the iterator over the next `j` values, and it points
at a value as long as there is one. -/
theorem iterate_increment {it : Iterator α} (hok : RootOk K it.tree) (hn : it.Normal) {j : ℕ}
    (hj : j ≤ it.rest.length) :
    (increment^[j] it).tree = it.tree ∧ (increment^[j] it).before = it.before ++ it.rest.take j ∧
      (increment^[j] it).rest = it.rest.drop j ∧ (increment^[j] it).Normal := by
  induction j with
  | zero => exact ⟨rfl, (List.append_nil _).symm, rfl, hn⟩
  | succ j ih =>
      obtain ⟨htree, hbefore, hrest, hnormal⟩ := ih (Nat.le_of_succ_le hj)
      have hlt : j < it.rest.length := hj
      have hv := hnormal.value? (hrest.trans (List.drop_eq_getElem_cons hlt))
      obtain ⟨htree', hbefore', hrest'⟩ := increment_spec hv
      rw [Function.iterate_succ_apply']
      refine ⟨htree'.trans htree, ?_, ?_, ?_⟩
      · rw [hbefore', hbefore, List.append_assoc, List.take_succ_eq_append_getElem hlt]
      · rw [hrest, List.drop_eq_getElem_cons hlt] at hrest'
        exact (List.cons.inj hrest').2.symm
      · exact increment_normal (by rw [htree]; exact hok) (Iterator.Pointing.of_value? hv)

end Steps

end Btree
