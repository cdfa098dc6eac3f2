/-
# Erasing (`storage/btree/btree.tcc`)

A value is erased from a leaf: one in an internal node changes places with the last value of the
leaf before it first.  A leaf left with too few values is then merged with a sibling, or is given
some of a sibling's, and where nodes have been merged their parent has one value less and is
looked at in its turn, up to the root, which goes when it has no value left.  The iterator
returned is kept on its place while the nodes around it are moved and dropped.

* `tryMergeOrRebalance_spec` : one step up keeps every position of the node at its place;
* `repair_spec` : and so does the whole way up, and all nodes have enough values again;
* `erase_spec` : erasing takes the value at the iterator away and nothing else, and the
  iterator returned points at the value after it.
-/
import Atlasdb.BtreeInsert
import Atlasdb.BtreeWalk

namespace BtreeNode

variable {α β : Type}

/-- One half of `value_swap`: another value at a position. -/
def setValue (n : BtreeNode α β) (i : ℕ) (v : α) : BtreeNode α β :=
  { n with rest := n.rest.modify i fun e => (v, e.2) }

section SetValue

variable (content : β → List α) (n : BtreeNode α β) (i : ℕ) (v : α)

@[simp] theorem count_setValue : (n.setValue i v).count = n.count := List.length_modify _ _ _

@[simp] theorem children_setValue : (n.setValue i v).children = n.children := by
  have hmap : (n.rest.modify i fun e => (v, e.2)).map Prod.snd = n.rest.map Prod.snd := by
    apply List.ext_getElem?
    intro j
    rw [List.getElem?_map, List.getElem?_map, List.getElem?_modify]
    cases n.rest[j]? with
    | none => rfl
    | some e =>
        show some (if i = j then (v, e.2) else e).2 = some e.2
        split <;> rfl
  exact congrArg (n.first :: ·) hmap

/-- What stands before a value does not depend on the value. -/
@[simp] theorem beforeValue_setValue :
    beforeValue content (n.setValue i v) i = beforeValue content n i := by
  rw [beforeValue_eq, beforeValue_eq]
  show content n.first ++ afterContent content ((n.rest.modify i fun e => (v, e.2)).take i) = _
  rw [List.take_modify, List.modify_eq_self (List.length_take_le _ _)]

variable {n i v} {w : α} {c : β}

theorem getElem?_setValue (h : n.rest[i]? = some (w, c)) :
    (n.setValue i v).rest[i]? = some (v, c) := by
  show (n.rest.modify i fun e => (v, e.2))[i]? = _
  rw [List.getElem?_modify_eq, h]
  rfl

theorem rightOf_setValue (h : n.rest[i]? = some (w, c)) :
    rightOf content (n.setValue i v) i = v :: (content c ++ rightOf content n (i + 1)) := by
  rw [rightOf_value _ (getElem?_setValue h)]
  unfold rightOf
  show v :: (content c ++ afterContent content
    ((n.rest.modify i fun e => (v, e.2)).drop (i + 1))) = _
  rw [List.drop_modify_of_lt _ _ _ _ (Nat.lt_succ_self i)]

end SetValue

end BtreeNode

namespace Btree

variable {κ α : Type}

/-! ## `try_merge_or_rebalance` -/

/-- What `try_merge_or_rebalance` leaves: the node and the position in it, the parent without that
node, and whether the node was merged with a sibling. -/
structure Repaired (α : Type) (h : ℕ) where
  merged : Bool
  node : Node α h
  position : ℕ
  parent : ParentNode α (Child α (h + 1))

section Erase

variable {h : ℕ}

/-- The left sibling, if there is one and it passes a test, and what is farther to the left. -/
def leftSibling (parent : ParentNode α (Child α (h + 1))) (test : Node α h → Bool) :
    Option (Node α h × α × List (Node α h × α)) :=
  match parent.before with
  | (left, v) :: farther => if test left then some (left, v, farther) else none
  | [] => none

/-- The right sibling, likewise. -/
def rightSibling (parent : ParentNode α (Child α (h + 1))) (test : Node α h → Bool) :
    Option (α × Node α h × List (α × Node α h)) :=
  match parent.after with
  | (v, right) :: farther => if test right then some (v, right, farther) else none
  | [] => none

/-- How many values a sibling gives. -/
def toSpare (sibling node : Node α h) : ℕ :=
  min ((sibling.count - node.count) / 2) (sibling.count - 1)

/-- `try_merge_or_rebalance`.  Merging takes the delimiting value and the right one of the two
nodes out of the parent.  A sibling gives nothing where the first value, for the right one, or the
last, for the left one, of a node that has others was erased. -/
def tryMergeOrRebalance (kMin : ℕ) (node : Node α h) (position : ℕ)
    (parent : ParentNode α (Child α (h + 1))) : Option (Repaired α h) :=
  match leftSibling parent fun left => 1 + left.count + node.count ≤ left.maxCount with
  | some (left, v, farther) =>
      some ⟨true, left.merge v node, position + (1 + left.count), { parent with before := farther }⟩
  | none =>
  match rightSibling parent fun right => 1 + node.count + right.count ≤ right.maxCount with
  | some (v, right, farther) =>
      some ⟨true, node.merge v right, position, { parent with after := farther }⟩
  | none =>
  match rightSibling parent fun right =>
      kMin < right.count ∧ (node.count = 0 ∨ 0 < position) with
  | some (v, right, farther) =>
      (node.rebalanceRightToLeft v right (toSpare right node)).map fun (node', v', right') =>
        ⟨false, node', position, { parent with after := (v', right') :: farther }⟩
  | none =>
  match leftSibling parent fun left =>
      kMin < left.count ∧ (node.count = 0 ∨ position < node.count) with
  | some (left, v, farther) =>
      (left.rebalanceLeftToRight v node (toSpare left node)).map fun (left', v', node') =>
        ⟨false, node', position + toSpare left node,
          { parent with before := (left', v') :: farther }⟩
  | none => some ⟨false, node, position, parent⟩

end Erase

/-! ## The way up -/

/-- `is_root()` -/
def Ancestors.isRoot {h : ℕ} : Ancestors α h → Bool
  | .root => true
  | .child _ _ => false

/-- `try_shrink`, where the root has a child: without values the root goes and the child is the
root. -/
def tryShrink : {h : ℕ} → Ancestors α h → Ancestors α h
  | _, .child parent .root => if 0 < parent.count then .child parent .root else .root
  | _, .child parent (.child parent' up) => .child parent (.child parent' up)
  | _, .root => .root

theorem tryShrink_root {h : ℕ} (parent : ParentNode α (Child α (h + 1))) :
    tryShrink (.child parent .root) = if 0 < parent.count then .child parent .root else .root := rfl

/-- The loop of `erase`, from a node on: what has become of the node, and of the position in it.
The position is that of the leaf at all levels, and is moved along where the node is.  A node that
has been merged is found again in its parent, which is repaired before, by how far the position
has moved there. -/
def repair (kMin : ℕ) : {h : ℕ} → Node α h → ℕ → Ancestors α h → Option (Slot α h)
  | _, node, position, .root => some ⟨node, position, .root⟩
  | _, node, position, .child parent up =>
      if kMin ≤ node.count then some ⟨node, position, .child parent up⟩
      else
        (tryMergeOrRebalance kMin node position parent).bind fun r =>
          if r.merged then
            (repair kMin (r.parent.close r.node) r.position up).map fun s =>
              let place := r.parent.position + (s.position - r.position)
              ⟨s.node.child place, r.position, tryShrink (.child (s.node.openAt place).1 s.up)⟩
          else some ⟨r.node, r.position, .child r.parent up⟩

/-! ## `erase` -/

section Erase

variable (P : BtreeParams κ α)

/-- The leaf and the position in it that `erase` removes, and `internal_delete`.  The value of an
internal node is swapped with the one before it, which is in a leaf and must not be greater. -/
def eraseSlot : Iterator α → Option (Slot α 0 × Bool)
  | ⟨0, node, position, up⟩ => some (⟨node, position, up⟩, false)
  | ⟨h + 1, node, position, up⟩ =>
      (⟨h + 1, node, position, up⟩ : Iterator α).value?.bind fun v =>
      (decrement ⟨h + 1, node, position, up⟩).bind fun it => it.value?.bind fun w =>
      if P.order.lt (P.key v) (P.key w) then none
      else
        match decrement ⟨h + 1, node.setValue position w, position, up⟩ with
        | some ⟨0, leaf, position', up'⟩ => some (⟨leaf.setValue position' v, position', up'⟩, true)
        | _ => none

theorem eraseSlot_internal (h : ℕ) (node : Node α (h + 1)) (position : ℕ)
    (up : Ancestors α (h + 1)) :
    eraseSlot P ⟨h + 1, node, position, up⟩ =
      (⟨h + 1, node, position, up⟩ : Iterator α).value?.bind fun v =>
      (decrement ⟨h + 1, node, position, up⟩).bind fun it => it.value?.bind fun w =>
      if P.order.lt (P.key v) (P.key w) then none
      else
        match decrement ⟨h + 1, node.setValue position w, position, up⟩ with
        | some ⟨0, leaf, position', up'⟩ => some (⟨leaf.setValue position' v, position', up'⟩, true)
        | _ => none := rfl

/-- A position at the end of a node goes on to the next one: from the last value of the node. -/
def advanceAtEnd (s : Slot α 0) : Iterator α :=
  if s.position = s.node.count then increment ⟨0, s.node, s.node.count - 1, s.up⟩
  else ⟨0, s.node, s.position, s.up⟩

/-- The iterator that `erase` returns: after a value of an internal node one further. -/
def eraseNext (s : Slot α 0) (internalDelete : Bool) : Iterator α :=
  if internalDelete then increment (advanceAtEnd s) else advanceAtEnd s

/-- The size that the root keeps, after a value has been removed from the leaf: it counts only
above the leaves. -/
def sizeAfterErase (s : Slot α 0) (rootSize : ℕ) : ℕ :=
  match s.up with
  | .root => rootSize
  | .child _ _ => rootSize - 1

/-- `erase(iter)`.  With the last value of the tree the root goes too, and the iterator returned has
no node. -/
def erase (b : Btree α) (it : Iterator α) : Option (Btree α × Option (Iterator α)) :=
  (eraseSlot P it).bind fun (s, internalDelete) =>
  (repair P.kMinNodeValues (s.node.removeValue s.position) s.position s.up).map fun s' =>
    if s'.up.isRoot ∧ s'.node.count = 0 then (⟨none, sizeAfterErase s b.rootSize⟩, none)
    else
      (⟨some (s'.up.close s'.node), sizeAfterErase s b.rootSize⟩,
        some (eraseNext s' internalDelete))

end Erase

/-! ## One step up -/

/-- A node that may have lost all its values. -/
structure Weak {h : ℕ} (K : ℕ) (node : Node α h) : Prop where
  le : node.count ≤ K
  max : node.maxCount = K
  children : ∀ c ∈ node.children, ChildOk K h c

/-- A parent that may have lost all its values. -/
structure WeakParent {h : ℕ} (K : ℕ) (parent : ParentNode α (Child α (h + 1))) : Prop where
  le : parent.count ≤ K
  max : parent.maxCount = K
  before : ∀ e ∈ parent.before, ChildOk K (h + 1) e.1
  after : ∀ e ∈ parent.after, ChildOk K (h + 1) e.2

theorem WeakParent.weak {h K : ℕ} {parent : ParentNode α (Child α (h + 1))} {node : Node α h}
    (hparent : WeakParent K parent) (hnode : NodeOk K (ChildOk K h) node) :
    Weak K (parent.close node : Node α (h + 1)) := by
  refine ⟨(BtreeNode.count_close parent node).trans_le hparent.le, hparent.max, ?_⟩
  rw [BtreeNode.children_close]
  intro c hc
  rcases List.mem_append.mp hc with hc | hc
  · obtain ⟨e, he, rfl⟩ := List.mem_map.mp (List.mem_reverse.mp hc)
    exact hparent.before e he
  · rcases List.mem_cons.mp hc with rfl | hc
    · exact hnode
    · obtain ⟨e, he, rfl⟩ := List.mem_map.mp hc
      exact hparent.after e he

/-- Every position of the node is at the same place afterwards, and the position that is kept has
moved as far as all others. -/
structure Moved {h : ℕ} (s s' : Slot α h) : Prop where
  position : s.position ≤ s'.position
  within : ∀ q ≤ s.node.count, q + (s'.position - s.position) ≤ s'.node.count
  place : ∀ q ≤ s.node.count,
    SamePlace ⟨s.node, q, s.up⟩ ⟨s'.node, q + (s'.position - s.position), s'.up⟩

/-- All positions moved by the same number. -/
theorem moved_of_shift {h : ℕ} {node node' : Node α h} {up up' : Ancestors α h} (position n : ℕ)
    (hwithin : ∀ q ≤ node.count, q + n ≤ node'.count)
    (hplace : ∀ q ≤ node.count, SamePlace ⟨node, q, up⟩ ⟨node', q + n, up'⟩) :
    Moved ⟨node, position, up⟩ ⟨node', position + n, up'⟩ := by
  refine ⟨Nat.le_add_right _ _, ?_, ?_⟩
  · rw [Nat.add_sub_cancel_left]
    exact hwithin
  · rw [Nat.add_sub_cancel_left]
    exact hplace

theorem moved_refl {h : ℕ} (s : Slot α h) : Moved s s :=
  moved_of_shift s.position 0 (fun _ hq => hq) fun _ _ => ⟨rfl, rfl, rfl⟩

/-- What one step leaves is in order but for the parent, which may have lost its last value. -/
structure RepairedOk {h : ℕ} (K : ℕ) (node : Node α h) (position : ℕ)
    (parent : ParentNode α (Child α (h + 1))) (r : Repaired α h) : Prop where
  nodeOk : NodeOk K (ChildOk K h) r.node
  parentOk : WeakParent K r.parent
  pos : r.merged = false → 1 ≤ r.parent.count
  moved : ∀ up, Moved ⟨node, position, .child parent up⟩ ⟨r.node, r.position, .child r.parent up⟩

section Step

variable {h K kMin : ℕ} {parent : ParentNode α (Child α (h + 1))} {test : Node α h → Bool}

theorem leftSibling_eq_some {left : Node α h} {v : α} {farther : List (Node α h × α)}
    (hsome : leftSibling parent test = some (left, v, farther)) :
    parent = ⟨parent.maxCount, (left, v) :: farther, parent.after⟩ ∧ test left = true := by
  obtain ⟨m, before, after⟩ := parent
  unfold leftSibling at hsome
  cases before with
  | nil => cases hsome
  | cons e before =>
      obtain ⟨left', v'⟩ := e
      simp only at hsome
      split at hsome
      · rename_i htest
        simp only [Option.some.injEq, Prod.mk.injEq] at hsome
        obtain ⟨rfl, rfl, rfl⟩ := hsome
        exact ⟨rfl, htest⟩
      · cases hsome

theorem rightSibling_eq_some {right : Node α h} {v : α} {farther : List (α × Node α h)}
    (hsome : rightSibling parent test = some (v, right, farther)) :
    parent = ⟨parent.maxCount, parent.before, (v, right) :: farther⟩ ∧ test right = true := by
  obtain ⟨m, before, after⟩ := parent
  unfold rightSibling at hsome
  cases after with
  | nil => cases hsome
  | cons e after =>
      obtain ⟨v', right'⟩ := e
      simp only at hsome
      split at hsome
      · rename_i htest
        simp only [Option.some.injEq, Prod.mk.injEq] at hsome
        obtain ⟨rfl, rfl, rfl⟩ := hsome
        exact ⟨rfl, htest⟩
      · cases hsome

/-- No left sibling that passes the test: there is none, or it fails. -/
theorem leftSibling_eq_none (hnone : leftSibling parent test = none) {e : Node α h × α}
    (he : parent.before.head? = some e) : test e.1 = false := by
  obtain ⟨m, before, after⟩ := parent
  unfold leftSibling at hnone
  cases before with
  | nil => cases he
  | cons e' before =>
      obtain rfl := Option.some.inj he
      simp only at hnone
      split at hnone
      · cases hnone
      · rename_i htest
        exact Bool.not_eq_true _ ▸ htest

theorem rightSibling_eq_none (hnone : rightSibling parent test = none) {e : α × Node α h}
    (he : parent.after.head? = some e) : test e.2 = false := by
  obtain ⟨m, before, after⟩ := parent
  unfold rightSibling at hnone
  cases after with
  | nil => cases he
  | cons e' after =>
      obtain rfl := Option.some.inj he
      simp only at hnone
      split at hnone
      · cases hnone
      · rename_i htest
        exact Bool.not_eq_true _ ▸ htest

/-- Two nodes put together, with room for both. -/
theorem nodeOk_merge {left right : Node α h} (v : α) (hmax : left.maxCount = K)
    (hle : 1 + left.count + right.count ≤ K) (hleft : ∀ c ∈ left.children, ChildOk K h c)
    (hright : ∀ c ∈ right.children, ChildOk K h c) :
    NodeOk K (ChildOk K h) (left.merge v right) := by
  refine ⟨?_, ?_, hmax, ?_⟩
  · rw [BtreeNode.count_merge]
    omega
  · rw [BtreeNode.count_merge]
    omega
  · rw [BtreeNode.children_merge]
    intro c hc
    rcases List.mem_append.mp hc with hc | hc
    · exact hleft c hc
    · exact hright c hc

theorem mergeLeft_spec {node left : Node α h} {v : α} {farther : List (Node α h × α)} {m : ℕ}
    {after : List (α × Node α h)} (position : ℕ) (hnode : Weak K node)
    (hparent : ParentOk K (ChildOk K (h + 1)) ⟨m, (left, v) :: farther, after⟩)
    (hfits : 1 + left.count + node.count ≤ left.maxCount) :
    RepairedOk K node position ⟨m, (left, v) :: farther, after⟩
      ⟨true, left.merge v node, position + (1 + left.count), ⟨m, farther, after⟩⟩ := by
  have hleft : NodeOk K (ChildOk K h) left := hparent.before _ List.mem_cons_self
  have hle : farther.length + 1 + after.length ≤ K := hparent.le
  refine ⟨nodeOk_merge v hleft.max (hfits.trans_eq hleft.max) hleft.children hnode.children,
    ⟨?_, hparent.max, fun e he => hparent.before e (List.mem_cons_of_mem _ he), hparent.after⟩,
    fun (hmerged : true = false) => Bool.noConfusion hmerged,
    fun up => moved_of_shift _ _ ?_ ?_⟩
  · show farther.length + after.length ≤ K
    omega
  · intro q hq
    rw [BtreeNode.count_merge]
    omega
  · intro q _
    rw [show q + (1 + left.count) = left.count + 1 + q by omega]
    exact (slot_right ⟨m, farther, after⟩ up left node v).symm

theorem mergeRight_spec {node right : Node α h} {v : α} {farther : List (α × Node α h)} {m : ℕ}
    {before : List (Node α h × α)} (position : ℕ) (hnode : Weak K node)
    (hparent : ParentOk K (ChildOk K (h + 1)) ⟨m, before, (v, right) :: farther⟩)
    (hfits : 1 + node.count + right.count ≤ right.maxCount) :
    RepairedOk K node position ⟨m, before, (v, right) :: farther⟩
      ⟨true, node.merge v right, position, ⟨m, before, farther⟩⟩ := by
  have hright : NodeOk K (ChildOk K h) right := hparent.after _ List.mem_cons_self
  have hle : before.length + (farther.length + 1) ≤ K := hparent.le
  refine ⟨nodeOk_merge v hnode.max (hfits.trans_eq hright.max) hnode.children hright.children,
    ⟨?_, hparent.max, hparent.before, fun e he => hparent.after e (List.mem_cons_of_mem _ he)⟩,
    fun (hmerged : true = false) => Bool.noConfusion hmerged,
    fun up => moved_of_shift _ 0 ?_ ?_⟩
  · show before.length + farther.length ≤ K
    omega
  · intro q hq
    rw [BtreeNode.count_merge]
    omega
  · exact fun q hq => (slot_left ⟨m, before, farther⟩ up node right v hq).symm

theorem spareRight_spec {node right : Node α h} {v : α} {farther : List (α × Node α h)} {m : ℕ}
    {before : List (Node α h × α)} (position : ℕ) (hnode : Weak K node)
    (hparent : ParentOk K (ChildOk K (h + 1)) ⟨m, before, (v, right) :: farther⟩)
    (hspare : node.count + 2 ≤ right.count) :
    ∃ node' v' right', node.rebalanceRightToLeft v right (toSpare right node)
        = some (node', v', right') ∧
      RepairedOk K node position ⟨m, before, (v, right) :: farther⟩
        ⟨false, node', position, ⟨m, before, (v', right') :: farther⟩⟩ := by
  have hright : NodeOk K (ChildOk K h) right := hparent.after _ List.mem_cons_self
  have hle := hright.le
  have hmove : 1 ≤ toSpare right node ∧ node.count + toSpare right node ≤ right.count ∧
      toSpare right node + 1 ≤ right.count := by
    unfold toSpare
    omega
  obtain ⟨node', v', right', hsome, hrep, hcountn, hcountr⟩ :=
    @BtreeNode.rebalanceRightToLeft_spec _ _ node right v (toSpare right node) (by omega) hmove.1
      (by omega)
  obtain ⟨hokn, hokr⟩ := repartition_children hrep hnode.children hright.children
  have hnode' : NodeOk K (ChildOk K h) node' :=
    ⟨by omega, by omega, hrep.maxLeft.trans hnode.max, hokn⟩
  refine ⟨node', v', right', hsome, hnode',
    ⟨hparent.le, hparent.max, hparent.before, ?_⟩, fun _ => hparent.pos,
    fun up => moved_of_shift _ 0 ?_ ?_⟩
  · intro e he
    rcases List.mem_cons.mp he with rfl | he
    · exact ⟨by show 1 ≤ right'.count; omega, by show right'.count ≤ K; omega,
        hrep.maxRight.trans hright.max, hokr⟩
    · exact hparent.after e (List.mem_cons_of_mem _ he)
  · intro q hq
    show q + _ ≤ node'.count
    omega
  · intro q hq
    have hnew := slot_left ⟨m, before, farther⟩ up node' right' v' (q := q) (by omega)
    rw [hrep.merged] at hnew
    exact (slot_left ⟨m, before, farther⟩ up node right v hq).symm.trans hnew

theorem spareLeft_spec {node left : Node α h} {v : α} {farther : List (Node α h × α)} {m : ℕ}
    {after : List (α × Node α h)} (position : ℕ) (hnode : Weak K node)
    (hparent : ParentOk K (ChildOk K (h + 1)) ⟨m, (left, v) :: farther, after⟩)
    (hspare : node.count + 2 ≤ left.count) :
    ∃ left' v' node', left.rebalanceLeftToRight v node (toSpare left node)
        = some (left', v', node') ∧
      RepairedOk K node position ⟨m, (left, v) :: farther, after⟩
        ⟨false, node', position + toSpare left node, ⟨m, (left', v') :: farther, after⟩⟩ := by
  have hleft : NodeOk K (ChildOk K h) left := hparent.before _ List.mem_cons_self
  have hle := hleft.le
  have hmove : 1 ≤ toSpare left node ∧ node.count + toSpare left node ≤ left.count ∧
      toSpare left node + 1 ≤ left.count := by
    unfold toSpare
    omega
  obtain ⟨left', v', node', hsome, hrep, hcountl, hcountn⟩ :=
    @BtreeNode.rebalanceLeftToRight_spec _ _ left node v (toSpare left node) (by omega) hmove.1
      (by omega)
  obtain ⟨hokl, hokn⟩ := repartition_children hrep hleft.children hnode.children
  have hnode' : NodeOk K (ChildOk K h) node' :=
    ⟨by omega, by omega, hrep.maxRight.trans hnode.max, hokn⟩
  refine ⟨left', v', node', hsome, hnode',
    ⟨hparent.le, hparent.max, ?_, hparent.after⟩, fun _ => hparent.pos,
    fun up => moved_of_shift _ _ ?_ ?_⟩
  · intro e he
    rcases List.mem_cons.mp he with rfl | he
    · exact ⟨by show 1 ≤ left'.count; omega, by show left'.count ≤ K; omega,
        hrep.maxLeft.trans hleft.max, hokl⟩
    · exact hparent.before e (List.mem_cons_of_mem _ he)
  · intro q hq
    show q + _ ≤ node'.count
    omega
  · intro q hq
    have hnew := slot_right ⟨m, farther, after⟩ up left' node' v' (q := q + toSpare left node)
    rw [hrep.merged, show left'.count + 1 + (q + toSpare left node) = left.count + 1 + q by omega]
      at hnew
    exact (slot_right ⟨m, farther, after⟩ up left node v).symm.trans hnew

/-- **One step up never fails**: it keeps every position of the node at its place, and of the
nodes only the parent may be left without values. -/
theorem tryMergeOrRebalance_spec (hK : 3 ≤ K) (hkMin : kMin = K / 2) {node : Node α h}
    (position : ℕ) (hnode : Weak K node) (hfew : node.count < kMin)
    (hparent : ParentOk K (ChildOk K (h + 1)) parent) :
    ∃ r, tryMergeOrRebalance kMin node position parent = some r ∧
      RepairedOk K node position parent r := by
  unfold tryMergeOrRebalance
  cases hml : leftSibling parent fun left => 1 + left.count + node.count ≤ left.maxCount with
  | some sibling =>
      obtain ⟨left, v, farther⟩ := sibling
      obtain ⟨heq, htest⟩ := leftSibling_eq_some hml
      rw [heq] at hparent ⊢
      exact ⟨_, rfl, mergeLeft_spec position hnode hparent (of_decide_eq_true htest)⟩
  | none =>
  cases hmr : rightSibling parent fun right => 1 + node.count + right.count ≤ right.maxCount with
  | some sibling =>
      obtain ⟨v, right, farther⟩ := sibling
      obtain ⟨heq, htest⟩ := rightSibling_eq_some hmr
      rw [heq] at hparent ⊢
      exact ⟨_, rfl, mergeRight_spec position hnode hparent (of_decide_eq_true htest)⟩
  | none =>
  cases hsr : rightSibling parent fun right =>
      kMin < right.count ∧ (node.count = 0 ∨ 0 < position) with
  | some sibling =>
      obtain ⟨v, right, farther⟩ := sibling
      obtain ⟨heq, htest⟩ := rightSibling_eq_some hsr
      have hspare := (of_decide_eq_true htest).1
      rw [heq] at hparent ⊢
      obtain ⟨node', v', right', hsome, hok⟩ :=
        spareRight_spec position hnode hparent (by omega : node.count + 2 ≤ right.count)
      simp only
      rw [hsome]
      exact ⟨_, rfl, hok⟩
  | none =>
  cases hsl : leftSibling parent fun left =>
      kMin < left.count ∧ (node.count = 0 ∨ position < node.count) with
  | some sibling =>
      obtain ⟨left, v, farther⟩ := sibling
      obtain ⟨heq, htest⟩ := leftSibling_eq_some hsl
      have hspare := (of_decide_eq_true htest).1
      rw [heq] at hparent ⊢
      obtain ⟨left', v', node', hsome, hok⟩ :=
        spareLeft_spec position hnode hparent (by omega : node.count + 2 ≤ left.count)
      simp only
      rw [hsome]
      exact ⟨_, rfl, hok⟩
  | none =>
      have hpos : 1 ≤ node.count := by
        -- an empty node is merged, unless its sibling is full, and then it is given some values
        by_contra hzero
        have hcount := hparent.pos
        obtain ⟨m, before, after⟩ := parent
        cases before with
        | cons e before =>
            have hleft : NodeOk K (ChildOk K h) e.1 := hparent.before e List.mem_cons_self
            have hfull := of_decide_eq_false (leftSibling_eq_none hml rfl)
            have hspare := of_decide_eq_false (leftSibling_eq_none hsl rfl)
            rw [hleft.max] at hfull
            exact hspare ⟨by omega, Or.inl (by omega)⟩
        | nil =>
            cases after with
            | cons e after =>
                have hright : NodeOk K (ChildOk K h) e.2 := hparent.after e List.mem_cons_self
                have hfull := of_decide_eq_false (rightSibling_eq_none hmr rfl)
                have hspare := of_decide_eq_false (rightSibling_eq_none hsr rfl)
                rw [hright.max] at hfull
                exact hspare ⟨by omega, Or.inl (by omega)⟩
            | nil => exact absurd hcount (Nat.not_succ_le_zero 0)
      exact ⟨_, rfl, ⟨hpos, hnode.le, hnode.max, hnode.children⟩,
        ⟨hparent.le, hparent.max, hparent.before, hparent.after⟩, fun _ => hparent.pos,
        fun up => moved_refl _⟩

/-! ## All the way up -/

/-- The ancestors of a node that is where it was count only by what they hold. -/
theorem Moved.of_up {s : Slot α h} {node : Node α h} {position : ℕ} {up up' : Ancestors α h}
    (hmoved : Moved s ⟨node, position, up⟩) (hb : up'.before = up.before)
    (ha : up'.after = up.after) : Moved s ⟨node, position, up'⟩ :=
  ⟨hmoved.position, hmoved.within,
    fun q hq => (hmoved.place q hq).trans (samePlace_of_up hb ha node _)⟩

/-- A root without values may go: it holds no more than its child. -/
theorem tryShrink_spec {up : Ancestors α (h + 1)} (hparent : WeakParent K parent)
    (hpos : 1 ≤ parent.count ∨ up = .root) (hup : AncestorsOk K up) :
    AncestorsOk K (tryShrink (.child parent up)) ∧
      (tryShrink (.child parent up)).before = (Ancestors.child parent up).before ∧
      (tryShrink (.child parent up)).after = (Ancestors.child parent up).after := by
  have hok : 1 ≤ parent.count → ParentOk K (ChildOk K (h + 1)) parent :=
    fun hone => ⟨hone, hparent.le, hparent.max, hparent.before, hparent.after⟩
  cases up with
  | child parent' up =>
      exact ⟨⟨hok (hpos.resolve_right (Ancestors.child_ne_root parent' up)), hup⟩, rfl, rfl⟩
  | root =>
      rw [tryShrink_root]
      by_cases hone : 0 < parent.count
      · rw [if_pos hone]
        exact ⟨⟨hok hone, trivial⟩, rfl, rfl⟩
      · rw [if_neg hone]
        obtain ⟨m, before, after⟩ := parent
        change ¬0 < before.length + after.length at hone
        obtain rfl : before = [] := List.eq_nil_of_length_eq_zero (by omega)
        obtain rfl : after = [] := List.eq_nil_of_length_eq_zero (by omega)
        exact ⟨trivial, rfl, rfl⟩

/-- **Merging and rebalancing up to the root never fails**, and every position of the node is kept
at its place: by induction on the ancestors, the parent of merged nodes being repaired first. -/
theorem repair_spec (hK : 3 ≤ K) (hkMin : kMin = K / 2) : {h : ℕ} → (node : Node α h) →
    (position : ℕ) → (up : Ancestors α h) → Weak K node → AncestorsOk K up →
    ∃ s, repair kMin node position up = some s ∧ Weak K s.node ∧ AncestorsOk K s.up ∧
      (1 ≤ s.node.count ∨ up = .root ∧ s.up = .root) ∧ Moved ⟨node, position, up⟩ s
  | _, node, position, .root, hnode, _ =>
      ⟨⟨node, position, .root⟩, rfl, hnode, trivial, Or.inr ⟨rfl, rfl⟩, moved_refl _⟩
  | h, node, position, .child parent up, hnode, hup => by
      unfold repair
      by_cases henough : kMin ≤ node.count
      · rw [if_pos henough]
        exact ⟨_, rfl, hnode, hup, Or.inl (by show 1 ≤ node.count; omega), moved_refl _⟩
      · rw [if_neg henough]
        obtain ⟨r, hr, hrepaired⟩ := tryMergeOrRebalance_spec hK hkMin position hnode
          (Nat.lt_of_not_le henough) hup.1
        have hweak : Weak K r.node := ⟨hrepaired.nodeOk.le, hrepaired.nodeOk.max,
          hrepaired.nodeOk.children⟩
        rw [hr, Option.bind_some]
        by_cases hmerged : r.merged
        · obtain ⟨s, hs, hsWeak, hsUp, hsPos, hsMoved⟩ := repair_spec hK hkMin
            (r.parent.close r.node) r.position up (hrepaired.parentOk.weak hrepaired.nodeOk) hup.2
          rw [if_pos hmerged, hs, Option.map_some]
          have hcount := BtreeNode.position_le_count r.parent r.node
          -- the node is looked up again in its parent, wherever that is now
          obtain ⟨hchild, hbefore, hafter⟩ := (hsMoved.place r.parent.position hcount).reopen
          have hwithin := hsMoved.within r.parent.position hcount
          obtain ⟨hb, ha⟩ := openAt_children (r.parent.position + (s.position - r.position))
            hsWeak.children
          have hopen : WeakParent K
              (s.node.openAt (r.parent.position + (s.position - r.position))).1 :=
            ⟨(BtreeNode.count_openAt s.node hwithin).trans_le hsWeak.le, hsWeak.max, hb, ha⟩
          obtain ⟨hshrink, hbefore', hafter'⟩ := tryShrink_spec hopen
            (hsPos.imp (BtreeNode.count_openAt s.node hwithin).ge.trans' And.right) hsUp
          refine ⟨_, rfl, ?_⟩
          simp only [hchild]
          exact ⟨hweak, hshrink, Or.inl hrepaired.nodeOk.pos,
            (hrepaired.moved up).of_up (hbefore'.trans hbefore) (hafter'.trans hafter)⟩
        · rw [if_neg hmerged]
          have hpos := hrepaired.pos (Bool.not_eq_true _ ▸ hmerged)
          have hparent := hrepaired.parentOk
          exact ⟨_, rfl, hweak, ⟨⟨hpos, hparent.le, hparent.max, hparent.before, hparent.after⟩,
            hup.2⟩, Or.inl hrepaired.nodeOk.pos, hrepaired.moved up⟩

end Step

/-! ## The leaf -/

section Leaf

variable {P : BtreeParams κ α} {K : ℕ}

/-- The invariant at a node sees only how many values it has and its children. -/
theorem RootOk.congr {h : ℕ} {up : Ancestors α h} {n n' : Node α h} (hok : RootOk K (up.close n))
    (hcount : n'.count = n.count) (hmax : n'.maxCount = n.maxCount)
    (hchildren : n'.children = n.children) : RootOk K (up.close n') := by
  cases up with
  | root =>
      obtain ⟨hpos, hle, hmax', hinternal, hall⟩ := hok
      refine ⟨hpos.trans_eq hcount.symm, ?_, hmax.trans_le hmax',
        fun hh => hmax.trans (hinternal hh), ?_⟩
      · show n'.count ≤ n'.maxCount
        rw [hcount, hmax]
        exact hle
      · show ∀ c ∈ n'.children, ChildOk K h c
        rw [hchildren]
        exact hall
  | child parent up =>
      obtain ⟨hn, hup⟩ := (rootOk_close_child parent up n).mp hok
      exact (rootOk_close_child parent up n').mpr ⟨⟨hn.pos.trans_eq hcount.symm,
        hcount.trans_le hn.le, hmax.trans hn.max, by rw [hchildren]; exact hn.children⟩, hup⟩

/-- A step back from an internal node ends in a leaf. -/
theorem decrement_leaf {h : ℕ} {node : Node α (h + 1)} {p : ℕ} {up : Ancestors α (h + 1)}
    {it : Iterator α} (hit : decrement ⟨h + 1, node, p, up⟩ = some it) : it.height = 0 := by
  rw [decrement_internal] at hit
  obtain rfl := Option.some.inj hit
  exact (rightmost_spec h (node.child p) (.child (node.openAt p).1 up)).2.2.2.1

/-- A slot of a leaf that stands for an iterator: the value to be erased is there, and a value
that has changed places with it comes next. -/
structure EraseSlot (K : ℕ) (it : Iterator α) (v : α) (s : Slot α 0) (internalDelete : Bool) :
    Prop where
  ok : RootOk K (s.up.close s.node)
  value : (⟨0, s.node, s.position, s.up⟩ : Iterator α).value? = some v
  height : s.up ≠ .root → it.tree.height ≠ 0
  leaf : internalDelete = false → (⟨0, s.node, s.position, s.up⟩ : Iterator α).before = it.before ∧
    (⟨0, s.node, s.position, s.up⟩ : Iterator α).rest = it.rest
  swapped : internalDelete = true → ∃ w,
    it.before = (⟨0, s.node, s.position, s.up⟩ : Iterator α).before ++ [w] ∧
    (⟨0, s.node, s.position, s.up⟩ : Iterator α).rest = v :: w :: it.rest.tail

/-- Another value at an iterator. -/
theorem setValue_spec {h : ℕ} {node : Node α h} {p : ℕ} {up : Ancestors α h} {w : α} (v : α)
    (hw : (⟨h, node, p, up⟩ : Iterator α).value? = some w) :
    (⟨h, node.setValue p v, p, up⟩ : Iterator α).value? = some v ∧
      (⟨h, node.setValue p v, p, up⟩ : Iterator α).before
        = (⟨h, node, p, up⟩ : Iterator α).before ∧
      (⟨h, node.setValue p v, p, up⟩ : Iterator α).rest
        = v :: (⟨h, node, p, up⟩ : Iterator α).rest.tail := by
  obtain ⟨w', c, hentry, -⟩ := (Iterator.Pointing.of_value? hw).entry
  change node.rest[p]? = some (w', c) at hentry
  refine ⟨?_, ?_, ?_⟩
  · unfold Iterator.value?
    rw [BtreeNode.getElem?_setValue hentry]
    rfl
  · rw [Iterator.before_mk, Iterator.before_mk, BtreeNode.beforeValue_setValue]
  · rw [Iterator.rest_mk, Iterator.rest_mk, BtreeNode.rightOf_setValue _ hentry,
      BtreeNode.rightOf_value _ hentry]
    rfl

/-- The assertions on the way to the leaf hold on a tree in order. -/
theorem eraseSlot_spec {it : Iterator α} {v : α} (hok : RootOk K it.tree)
    (hord : P.order.Ordered P.key it.tree.inorder) (hv : it.value? = some v) :
    ∃ s internalDelete, eraseSlot P it = some (s, internalDelete) ∧
      EraseSlot K it v s internalDelete := by
  obtain ⟨h, node, position, up⟩ := it
  have hp : position < node.count := Iterator.Pointing.of_value? hv
  cases h with
  | zero =>
      refine ⟨⟨node, position, up⟩, false, rfl, ⟨hok, hv, ?_, fun _ => ⟨rfl, rfl⟩,
        fun hd => Bool.noConfusion hd⟩⟩
      intro hup
      cases up with
      | root => exact absurd rfl hup
      | child parent up =>
          have := height_close up (parent.close node)
          show (up.close (parent.close node)).height ≠ 0
          omega
  | succ h =>
      have hpoint : (⟨h + 1, node, position, up⟩ : Iterator α).Pointing := hp
      obtain ⟨v', c, hentry, hv'⟩ := hpoint.entry
      obtain rfl := Option.some.inj (hv.symm.trans hv')
      change node.rest[position]? = some (v, c) at hentry
      obtain ⟨tail, htail⟩ := Iterator.rest_of_value? hv
      have hdec := decrement_spec hok (Nat.le_of_lt hp)
      cases hit : decrement ⟨h + 1, node, position, up⟩ with
      | none => rw [decrement_internal] at hit; cases hit
      | some it =>
      rw [hit] at hdec
      obtain ⟨-, w, hw, hb, -⟩ := hdec
      have hle : P.order.lt (P.key v) (P.key w) = false := by
        rw [Iterator.inorder_tree, hb, htail, List.append_assoc] at hord
        exact (List.pairwise_cons.mp (List.pairwise_append.mp hord).2.1).1 v List.mem_cons_self
      -- the same step in the tree where the values have been swapped
      have hok' : RootOk K (up.close (node.setValue position w)) :=
        RootOk.congr hok (BtreeNode.count_setValue node position w) rfl
          (BtreeNode.children_setValue node position w)
      have hp' : position ≤ (node.setValue position w).count := by
        rw [BtreeNode.count_setValue]
        exact Nat.le_of_lt hp
      have hdec' := @decrement_spec _ _ ⟨h + 1, node.setValue position w, position, up⟩ hok' hp'
      cases hit' : decrement ⟨h + 1, node.setValue position w, position, up⟩ with
      | none => rw [decrement_internal] at hit'; cases hit'
      | some it' =>
      rw [hit'] at hdec'
      obtain ⟨htree', x, hx, hb', hr'⟩ := hdec'
      rw [Iterator.before_mk, BtreeNode.beforeValue_setValue, ← Iterator.before_mk, hb] at hb'
      obtain ⟨hbefore, hxw⟩ := List.append_inj' hb' rfl
      obtain rfl := (List.cons.inj hxw).1
      rw [Iterator.rest_mk (h + 1), BtreeNode.rightOf_setValue _ hentry] at hr'
      obtain ⟨h', leaf, p, up'⟩ := it'
      obtain rfl : h' = 0 := decrement_leaf hit'
      obtain ⟨hvalue, hb'', hr''⟩ := setValue_spec v hx
      refine ⟨⟨leaf.setValue p v, p, up'⟩, true, ?_, ⟨?_, hvalue, fun _ => ?_,
        fun hd => Bool.noConfusion hd, fun _ => ⟨w, ?_, ?_⟩⟩⟩
      · rw [eraseSlot_internal, hv, Option.bind_some, hit, Option.bind_some, hw, Option.bind_some,
          if_neg (by rw [hle]; exact Bool.false_ne_true), hit']
        rfl
      · have htree : up'.close leaf = up.close (node.setValue position w) := htree'
        rw [← htree] at hok'
        exact RootOk.congr hok' (BtreeNode.count_setValue leaf p v) rfl
          (BtreeNode.children_setValue leaf p v)
      · have := height_close up node
        show (up.close node).height ≠ 0
        omega
      · rw [hb'', ← hbefore]
        exact hb
      · rw [hr'', hr', List.tail_cons, Iterator.rest_mk, BtreeNode.rightOf_value _ hentry]
        rfl

/-- Without its value a slot is at the same place. -/
theorem leaf_removeValue {leaf : Node α 0} {p : ℕ} {up : Ancestors α 0} {v : α}
    (hv : (⟨0, leaf, p, up⟩ : Iterator α).value? = some v) :
    (leaf.removeValue p).count + 1 = leaf.count ∧ p ≤ (leaf.removeValue p).count ∧
      (⟨0, leaf.removeValue p, p, up⟩ : Iterator α).before
        = (⟨0, leaf, p, up⟩ : Iterator α).before ∧
      (⟨0, leaf.removeValue p, p, up⟩ : Iterator α).rest
        = (⟨0, leaf, p, up⟩ : Iterator α).rest.tail := by
  have hp : p < leaf.rest.length := Iterator.Pointing.of_value? hv
  have hlen : (leaf.rest.take p).length = p := by
    rw [List.length_take]
    omega
  have hcount : (leaf.removeValue p).count = p + (leaf.rest.length - (p + 1)) := by
    show (leaf.rest.take p ++ leaf.rest.drop (p + 1)).length = _
    rw [List.length_append, hlen, List.length_drop]
  obtain ⟨w, c, hentry, -⟩ := (Iterator.Pointing.of_value? hv).entry
  change leaf.rest[p]? = some (w, c) at hentry
  refine ⟨?_, ?_, ?_, ?_⟩
  · show _ = leaf.rest.length
    omega
  · omega
  · rw [Iterator.before_mk, Iterator.before_mk, BtreeNode.beforeValue_eq, BtreeNode.beforeValue_eq]
    show up.before ++ (_ ++ afterContent (content 0)
      ((leaf.rest.take p ++ leaf.rest.drop (p + 1)).take p)) = _
    rw [List.take_left' hlen]
  · rw [Iterator.rest_mk, Iterator.rest_mk, BtreeNode.rightOf_value _ hentry]
    show afterContent (content 0) ((leaf.rest.take p ++ leaf.rest.drop (p + 1)).drop p)
      ++ up.after = _
    rw [List.drop_left' hlen]
    rfl

/-- In a leaf with values the way out of its end changes nothing of what is before and after. -/
theorem advanceAtEnd_spec {s : Slot α 0} (hok : RootOk K (s.up.close s.node))
    (hp : s.position ≤ s.node.count) :
    (advanceAtEnd s).tree = s.up.close s.node ∧ (advanceAtEnd s).Valid ∧
      (advanceAtEnd s).before = (⟨0, s.node, s.position, s.up⟩ : Iterator α).before ∧
      (advanceAtEnd s).rest = (⟨0, s.node, s.position, s.up⟩ : Iterator α).rest := by
  obtain ⟨node, position, up⟩ := s
  change position ≤ node.count at hp
  have hpos : 1 ≤ node.count := hok.focus.pos
  unfold advanceAtEnd
  by_cases hend : position = node.count
  · rw [if_pos hend]
    subst hend
    obtain ⟨v, hv, hb, hr⟩ := leaf_step up (show node.count - 1 < node.count by omega)
    obtain ⟨htree, hb', hr'⟩ := increment_spec hv
    rw [Nat.sub_add_cancel hpos] at hb hr
    refine ⟨htree, increment_valid hok (Iterator.Pointing.of_value? hv), hb'.trans hb.symm, ?_⟩
    exact (List.cons.inj (hr'.symm.trans hr)).2
  · rw [if_neg hend]
    exact ⟨rfl, Or.inl (Nat.lt_of_le_of_ne hp hend), rfl, rfl⟩

/-- Where the value was in a leaf, or the value that took its place comes first, the iterator
returned is the one that is due. -/
theorem eraseNext_spec {s : Slot α 0} {internalDelete : Bool} {before rest : List α}
    (hok : RootOk K (s.up.close s.node)) (hp : s.position ≤ s.node.count)
    (hleaf : internalDelete = false →
      (⟨0, s.node, s.position, s.up⟩ : Iterator α).before = before ∧
      (⟨0, s.node, s.position, s.up⟩ : Iterator α).rest = rest)
    (hswapped : internalDelete = true → ∃ w,
      before = (⟨0, s.node, s.position, s.up⟩ : Iterator α).before ++ [w] ∧
      (⟨0, s.node, s.position, s.up⟩ : Iterator α).rest = w :: rest) :
    (eraseNext s internalDelete).tree = s.up.close s.node ∧ (eraseNext s internalDelete).Valid ∧
      (eraseNext s internalDelete).before = before ∧ (eraseNext s internalDelete).rest = rest := by
  obtain ⟨htree, hvalid, hb, hr⟩ := advanceAtEnd_spec hok hp
  cases internalDelete with
  | false =>
      obtain ⟨hb', hr'⟩ := hleaf rfl
      exact ⟨htree, hvalid, hb.trans hb', hr.trans hr'⟩
  | true =>
      obtain ⟨w, hb', hr'⟩ := hswapped rfl
      have hv := hvalid.normal.value? (hr.trans hr')
      obtain ⟨htree', hb'', hr''⟩ := increment_spec hv
      refine ⟨htree'.trans htree, ?_, ?_, ?_⟩
      · exact increment_valid (by rw [htree]; exact hok) (Iterator.Pointing.of_value? hv)
      · refine hb''.trans ?_
        rw [hb, hb']
      · exact (List.cons.inj (hr''.symm.trans (hr.trans hr'))).2

/-- A node in order below ancestors in order. -/
theorem rootOk_of_nodeOk {h : ℕ} {node : Node α h} {up : Ancestors α h}
    (hnode : NodeOk K (ChildOk K h) node) (hup : AncestorsOk K up) : RootOk K (up.close node) := by
  cases up with
  | root => exact ⟨hnode.pos, hnode.le.trans_eq hnode.max.symm, hnode.max.le, fun _ => hnode.max,
      hnode.children⟩
  | child parent up => exact (rootOk_close_child parent up node).mpr ⟨hnode, hup⟩

/-- What is left of the leaf, after the way up, is in a tree in order, or it was the whole tree and
is empty. -/
theorem repair_leaf_spec {s : Slot α 0} {v : α} (hok : RootOk P.kNodeValues (s.up.close s.node))
    (hv : (⟨0, s.node, s.position, s.up⟩ : Iterator α).value? = some v) :
    ∃ s', repair P.kMinNodeValues (s.node.removeValue s.position) s.position s.up = some s' ∧
      s'.position ≤ s'.node.count ∧ (s.up = .root → s'.up = .root) ∧
      (⟨0, s'.node, s'.position, s'.up⟩ : Iterator α).before
        = (⟨0, s.node, s.position, s.up⟩ : Iterator α).before ∧
      (⟨0, s'.node, s'.position, s'.up⟩ : Iterator α).rest
        = (⟨0, s.node, s.position, s.up⟩ : Iterator α).rest.tail ∧
      (RootOk P.kNodeValues (s'.up.close s'.node) ∨ s'.up = .root ∧ s'.node.count = 0) := by
  obtain ⟨leaf, p, up⟩ := s
  obtain ⟨hcount, hp, hb, hr⟩ := leaf_removeValue hv
  change (leaf.removeValue p).count + 1 = leaf.count at hcount
  change p ≤ (leaf.removeValue p).count at hp
  cases up with
  | root =>
      refine ⟨⟨leaf.removeValue p, p, .root⟩, rfl, hp, fun _ => rfl, hb, hr, ?_⟩
      by_cases hzero : (leaf.removeValue p).count = 0
      · exact Or.inr ⟨rfl, hzero⟩
      · obtain ⟨-, hle, hmax, -, -⟩ := hok
        change leaf.count ≤ leaf.maxCount at hle
        exact Or.inl ⟨Nat.pos_of_ne_zero hzero, by
          show (leaf.removeValue p).count ≤ leaf.maxCount
          omega, hmax, fun h => absurd rfl h, fun _ _ => trivial⟩
  | child parent up =>
      obtain ⟨hleaf, hup⟩ := (rootOk_close_child parent up leaf).mp hok
      have hle := hleaf.le
      obtain ⟨s', hs', hweak, hup', hpos, hmoved⟩ := repair_spec P.three_le_kNodeValues rfl
        (leaf.removeValue p) p (.child parent up)
        ⟨by omega, hleaf.max, fun _ _ => trivial⟩ hup
      -- the iterator has moved as far as the place of the value that is gone
      have hpos' : 1 ≤ s'.node.count :=
        hpos.resolve_right fun h => Ancestors.child_ne_root parent up h.1
      have hshift := Nat.add_sub_cancel' hmoved.position
      have hplace := hmoved.place p hp
      have hwithin := hmoved.within p hp
      change p + (s'.position - p) = s'.position at hshift
      simp only [hshift] at hplace hwithin
      refine ⟨s', hs', hwithin, fun h => absurd h (Ancestors.child_ne_root parent up), ?_, ?_,
        Or.inl (rootOk_of_nodeOk ⟨hpos', hweak.le, hweak.max, hweak.children⟩ hup')⟩
      · rw [← hb, before_slot, before_slot]
        exact hplace.before
      · rw [← hr]
        exact hplace.rest

/-- **Erasing takes the value at the iterator away and changes nothing else**, whatever merging and
rebalancing it takes: the tree keeps its invariant and its size, none of the assertions on the
way fails, and the iterator returned points at the value that came after. -/
theorem erase_spec {b : Btree α} {it : Iterator α} {v : α} (hok : b.Ok P)
    (hord : P.order.Ordered P.key b.values) (hroot : b.root = some it.tree)
    (hv : it.value? = some v) :
    ∃ b' res, erase P b it = some (b', res) ∧ b'.Ok P ∧ b'.values = it.before ++ it.rest.tail ∧
      match res with
      | none => b'.root = none
      | some it' => b'.root = some it'.tree ∧ it'.before = it.before ∧ it'.rest = it.rest.tail ∧
          it'.Valid := by
  rw [values_of_root hroot] at hord
  obtain ⟨s, internalDelete, hs, hslot⟩ := eraseSlot_spec (hok.root _ hroot) hord hv
  obtain ⟨s', hs', hp, hroot', hb, hr, hcase⟩ := repair_leaf_spec hslot.ok hslot.value
  obtain ⟨tail, htail⟩ := Iterator.rest_of_value? hv
  -- where the way up has left the iterator, by where the value was
  have hleaf : internalDelete = false →
      (⟨0, s'.node, s'.position, s'.up⟩ : Iterator α).before = it.before ∧
      (⟨0, s'.node, s'.position, s'.up⟩ : Iterator α).rest = it.rest.tail := by
    intro hd
    obtain ⟨hb', hr'⟩ := hslot.leaf hd
    exact ⟨hb.trans hb', by rw [hr, hr']⟩
  have hswapped : internalDelete = true → ∃ w,
      it.before = (⟨0, s'.node, s'.position, s'.up⟩ : Iterator α).before ++ [w] ∧
      (⟨0, s'.node, s'.position, s'.up⟩ : Iterator α).rest = w :: it.rest.tail := by
    intro hd
    obtain ⟨w, hb', hr'⟩ := hslot.swapped hd
    exact ⟨w, by rw [hb, hb'], by rw [hr, hr', List.tail_cons]⟩
  have hvalues : (s'.up.close s'.node).inorder = it.before ++ it.rest.tail := by
    have hinorder := (⟨0, s'.node, s'.position, s'.up⟩ : Iterator α).inorder_tree
    refine hinorder.trans ?_
    cases internalDelete with
    | false =>
        obtain ⟨hb', hr'⟩ := hleaf rfl
        rw [hb', hr']
    | true =>
        obtain ⟨w, hb', hr'⟩ := hswapped rfl
        rw [hb', hr', List.append_assoc, List.singleton_append]
  have herase : erase P b it =
      if s'.up.isRoot ∧ s'.node.count = 0 then some (⟨none, sizeAfterErase s b.rootSize⟩, none)
      else some (⟨some (s'.up.close s'.node), sizeAfterErase s b.rootSize⟩,
        some (eraseNext s' internalDelete)) := by
    unfold erase
    rw [hs, Option.bind_some]
    simp only
    rw [hs', Option.map_some]
    split <;> rfl
  by_cases hempty : s'.up.isRoot ∧ s'.node.count = 0
  · rw [if_pos hempty] at herase
    have hnil : it.before ++ it.rest.tail = [] := by
      obtain ⟨leaf, p, up⟩ := s'
      cases up with
      | root =>
          rw [← hvalues]
          exact List.eq_nil_of_length_eq_zero ((length_inorder_leaf leaf).trans hempty.2)
      | child parent up => exact absurd hempty.1 Bool.false_ne_true
    exact ⟨_, _, herase, ⟨fun t ht => absurd ht nofun, fun t ht => absurd ht nofun⟩, hnil.symm, rfl⟩
  · rw [if_neg hempty] at herase
    have hok' : RootOk P.kNodeValues (s'.up.close s'.node) := by
      refine hcase.resolve_right fun h => hempty ⟨?_, h.2⟩
      rw [h.1]
      rfl
    obtain ⟨htree, hvalid, hb', hr'⟩ := eraseNext_spec hok' hp hleaf hswapped
    refine ⟨_, _, herase, ⟨?_, ?_⟩, hvalues, ?_, hb', hr', hvalid⟩
    · intro t ht
      obtain rfl := Option.some.inj ht
      exact hok'
    · intro t ht hheight
      obtain rfl := Option.some.inj ht
      -- above the leaves the root kept the size before, too
      have hup : s.up ≠ .root := by
        intro h
        rw [hroot' h] at hheight
        exact hheight rfl
      have hsize := hok.size _ hroot (hslot.height hup)
      show sizeAfterErase s b.rootSize = _
      rw [hvalues, List.length_append, htail, List.tail_cons]
      rw [Iterator.inorder_tree, List.length_append, htail, List.length_cons] at hsize
      obtain ⟨leaf, p, up⟩ := s
      cases up with
      | root => exact absurd rfl hup
      | child parent up =>
          show b.rootSize - 1 = _
          omega
    · exact congrArg some htree.symm

end Leaf

end Btree
