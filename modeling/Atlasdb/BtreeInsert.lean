/-
# Making room and inserting (`storage/btree/btree.tcc`)

A value goes into a leaf.  A full leaf first gets room from a sibling that has some, or is
split, which puts a value into its parent, and a full parent gets room in the same way before
that.  Here `none` stands for a failing assertion.

* `rebalanceOrSplit_spec` : there is room afterwards, at the same place among the values of the
  tree, and the tree keeps its invariant, whatever siblings and parents look like;
* `internalInsert_spec` : inserting puts the value at the iterator and nothing else anywhere.
-/
import Atlasdb.BtreeInvariant

namespace Btree

variable {α : Type}

/-! ## `rebalance_or_split` -/

/-- The iterator that `rebalance_or_split` works on: a node of a fixed height and a position. -/
structure Slot (α : Type) (h : ℕ) where
  node : Node α h
  position : ℕ
  up : Ancestors α h

/-- How many values to move to a sibling that has room: half of its room where the position of
the insertion is not at the far end, and all of it where it is. -/
def toMove {h : ℕ} (sibling : Node α h) (biased : Bool) : ℕ :=
  max 1 ((sibling.maxCount - sibling.count) / (1 + if biased then 1 else 0))

/-- The left sibling, if it has room and the position can be served by moving values to it. -/
def roomLeft {h : ℕ} (parent : ParentNode α (Child α (h + 1))) (insertPosition : ℕ) :
    Option (Node α h × α × List (Node α h × α) × ℕ) :=
  match parent.before with
  | (left, v) :: farther =>
      let n := toMove left (insertPosition < left.maxCount)
      if left.count < left.maxCount ∧
          (n ≤ insertPosition ∨ left.count + n < left.maxCount) then
        some (left, v, farther, n)
      else none
  | [] => none

/-- The right sibling, likewise. -/
def roomRight {h : ℕ} (node : Node α h) (parent : ParentNode α (Child α (h + 1)))
    (insertPosition : ℕ) : Option (α × Node α h × List (α × Node α h) × ℕ) :=
  match parent.after with
  | (v, right) :: farther =>
      let n := toMove right (0 < insertPosition)
      if right.count < right.maxCount ∧
          (insertPosition + n ≤ node.count ∨ right.count + n < right.maxCount) then
        some (v, right, farther, n)
      else none
  | [] => none

/-- Rebalancing with the left sibling. -/
def rebalanceLeft {h : ℕ} (node : Node α h) (insertPosition : ℕ)
    (parent : ParentNode α (Child α (h + 1))) (up : Ancestors α (h + 1)) (left : Node α h) (v : α)
    (farther : List (Node α h × α)) (n : ℕ) : Option (Slot α h) :=
  (left.rebalanceRightToLeft v node n).map fun (left', v', node') =>
    if insertPosition < n then
      ⟨left', insertPosition + left'.count + 1 - n,
        .child { parent with before := farther, after := (v', node') :: parent.after } up⟩
    else
      ⟨node', insertPosition - n, .child { parent with before := (left', v') :: farther } up⟩

/-- Rebalancing with the right sibling. -/
def rebalanceRight {h : ℕ} (node : Node α h) (insertPosition : ℕ)
    (parent : ParentNode α (Child α (h + 1))) (up : Ancestors α (h + 1)) (v : α) (right : Node α h)
    (farther : List (α × Node α h)) (n : ℕ) : Option (Slot α h) :=
  (node.rebalanceLeftToRight v right n).map fun (node', v', right') =>
    if node'.count < insertPosition then
      ⟨right', insertPosition - node'.count - 1,
        .child { parent with before := (node', v') :: parent.before, after := farther } up⟩
    else
      ⟨node', insertPosition, .child { parent with after := (v', right') :: farther } up⟩

/-- Splitting a node, which puts a value into its parent. -/
def splitNode {h : ℕ} (K : ℕ) (node : Node α h) (insertPosition : ℕ)
    (parent : ParentNode α (Child α (h + 1))) (up : Ancestors α (h + 1)) : Option (Slot α h) :=
  (node.split K insertPosition).map fun (node', v, splitNode) =>
    if node'.count < insertPosition then
      ⟨splitNode, insertPosition - node'.count - 1,
        .child { parent with before := (node', v) :: parent.before } up⟩
    else
      ⟨node', insertPosition, .child { parent with after := (v, splitNode) :: parent.after } up⟩

/-- `rebalance_or_split`.  At the root, leaf or not, the node gets a new parent without values; the
old root node stays the root where the source has the nodes swap their contents. -/
def rebalanceOrSplit (K : ℕ) : {h : ℕ} → Node α h → ℕ → Ancestors α h → Option (Slot α h)
  | _, node, insertPosition, .root =>
      if node.count = node.maxCount then splitNode K node insertPosition ⟨K, [], []⟩ .root
      else none
  | _, node, insertPosition, .child parent up =>
      if node.count = node.maxCount then
        match roomLeft parent insertPosition with
        | some (left, v, farther, n) =>
            rebalanceLeft node insertPosition parent up left v farther n
        | none =>
        match roomRight node parent insertPosition with
        | some (v, right, farther, n) =>
            rebalanceRight node insertPosition parent up v right farther n
        | none =>
            if parent.count = parent.maxCount then
              -- where the node is afterwards, its parent tells
              (rebalanceOrSplit K (parent.close node) parent.position up).bind fun s =>
                splitNode K (s.node.child s.position) insertPosition
                  (s.node.openAt s.position).1 s.up
            else splitNode K node insertPosition parent up
      else none

/-! ## The place of a position among the values -/

namespace Slot

variable {h : ℕ} (s : Slot α h)

/-- The values before the child at the position. -/
def before : List α := s.up.before ++ BtreeNode.leftOf (content h) s.node s.position

/-- The values after the child at the position. -/
def rest : List α := BtreeNode.rightOf (content h) s.node s.position ++ s.up.after

theorem before_mk (node : Node α h) (p : ℕ) (up : Ancestors α h) :
    (⟨node, p, up⟩ : Slot α h).before = up.before ++ BtreeNode.leftOf (content h) node p := rfl

theorem rest_mk (node : Node α h) (p : ℕ) (up : Ancestors α h) :
    (⟨node, p, up⟩ : Slot α h).rest = BtreeNode.rightOf (content h) node p ++ up.after := rfl

end Slot

/-- Two positions, maybe in different nodes, with the same child and the same values before and
after it. -/
structure SamePlace {h : ℕ} (s s' : Slot α h) : Prop where
  before : s'.before = s.before
  child : s'.node.child s'.position = s.node.child s.position
  rest : s'.rest = s.rest

theorem SamePlace.symm {h : ℕ} {s s' : Slot α h} (hs : SamePlace s s') : SamePlace s' s :=
  ⟨hs.before.symm, hs.child.symm, hs.rest.symm⟩

theorem SamePlace.trans {h : ℕ} {s s' s'' : Slot α h} (hs : SamePlace s s')
    (hs' : SamePlace s' s'') : SamePlace s s'' :=
  ⟨hs'.before.trans hs.before, hs'.child.trans hs.child, hs'.rest.trans hs.rest⟩

/-- In a node it matters only what stands before and after the node. -/
theorem samePlace_of_up {h : ℕ} {up up' : Ancestors α h} (hb : up'.before = up.before)
    (ha : up'.after = up.after) (node : Node α h) (q : ℕ) :
    SamePlace ⟨node, q, up⟩ ⟨node, q, up'⟩ := by
  refine ⟨?_, rfl, ?_⟩
  · rw [Slot.before_mk, Slot.before_mk, hb]
  · rw [Slot.rest_mk, Slot.rest_mk, ha]

/-- The child of a parent, found again where the parent's values have moved. -/
theorem SamePlace.reopen {h : ℕ} {parent : ParentNode α (Child α (h + 1))}
    {up : Ancestors α (h + 1)} {node : Node α h} {s : Slot α (h + 1)}
    (hs : SamePlace ⟨parent.close node, parent.position, up⟩ s) :
    s.node.child s.position = node ∧
      (Ancestors.child (s.node.openAt s.position).1 s.up).before
        = (Ancestors.child parent up).before ∧
      (Ancestors.child (s.node.openAt s.position).1 s.up).after
        = (Ancestors.child parent up).after := by
  refine ⟨hs.child.trans (BtreeNode.child_close parent node), ?_, ?_⟩
  · refine Eq.trans hs.before ?_
    rw [Slot.before_mk, BtreeNode.leftOf_close]
    rfl
  · rw [after_child]
    refine Eq.trans hs.rest ?_
    rw [Slot.rest_mk, BtreeNode.rightOf_close]
    rfl

/-- What making room does: the position is at the same place, in a node with room. -/
structure MadeRoom {h : ℕ} (K : ℕ) (s s' : Slot α h) : Prop where
  position : s'.position ≤ s'.node.count
  room : s'.node.count < K
  max : s'.node.maxCount = K
  children : ∀ c ∈ s'.node.children, ChildOk K h c
  up : AncestorsOk K s'.up
  place : SamePlace s s'

/-- A full node and its ancestors, with a position in it. -/
structure Full {h : ℕ} (K : ℕ) (s : Slot α h) : Prop where
  position : s.position ≤ K
  full : s.node.count = K
  max : s.node.maxCount = K
  children : ∀ c ∈ s.node.children, ChildOk K h c
  up : AncestorsOk K s.up

section Pairs

variable {h : ℕ} (parent : ParentNode α (Child α (h + 1))) (up : Ancestors α (h + 1))
  (left right : Node α h) (v : α) {q : ℕ}

/-- A position in the left one of two siblings is a position in both put together. -/
theorem slot_left (hq : q ≤ left.count) :
    SamePlace (⟨left.merge v right, q, .child parent up⟩ : Slot α h)
      ⟨left, q, .child { parent with after := (v, right) :: parent.after } up⟩ := by
  refine ⟨?_, (BtreeNode.child_merge_left left v right hq).symm, ?_⟩
  · rw [Slot.before_mk, Slot.before_mk, BtreeNode.leftOf_merge_left _ _ _ _ hq]
    rfl
  · rw [Slot.rest_mk, Slot.rest_mk, BtreeNode.rightOf_merge_left _ _ _ _ hq,
      Ancestors.after_under, Ancestors.after_under, afterContent_cons]
    simp only [List.append_assoc, List.cons_append]
    rfl

/-- And so is one in the right one. -/
theorem slot_right :
    SamePlace (⟨left.merge v right, left.count + 1 + q, .child parent up⟩ : Slot α h)
      ⟨right, q, .child { parent with before := (left, v) :: parent.before } up⟩ := by
  refine ⟨?_, (BtreeNode.child_merge_right left v right q).symm, ?_⟩
  · rw [Slot.before_mk, Slot.before_mk, BtreeNode.leftOf_merge_right, Ancestors.before_under,
      Ancestors.before_under, beforeContent_cons]
    simp only [List.append_assoc, List.cons_append, List.nil_append]
    rfl
  · rw [Slot.rest_mk, Slot.rest_mk, BtreeNode.rightOf_merge_right]
    rfl

end Pairs

/-! ## Room for a value -/

section Room

variable {K h : ℕ}

theorem one_le_toMove (sibling : Node α h) (biased : Bool) : 1 ≤ toMove sibling biased :=
  Nat.le_max_left 1 _

theorem toMove_le {sibling : Node α h} (biased : Bool) (hroom : sibling.count < sibling.maxCount) :
    toMove sibling biased ≤ sibling.maxCount - sibling.count := by
  have := Nat.div_le_self (sibling.maxCount - sibling.count) (1 + if biased then 1 else 0)
  unfold toMove
  omega

/-- The children of two siblings, cut at another place. -/
theorem repartition_children {n m n' m' : Node α h} {v v' : α} {childOk : Child α h → Prop}
    (hrep : BtreeNode.Repartition n v m n' v' m') (hn : ∀ c ∈ n.children, childOk c)
    (hm : ∀ c ∈ m.children, childOk c) :
    (∀ c ∈ n'.children, childOk c) ∧ (∀ c ∈ m'.children, childOk c) := by
  have hall : ∀ c ∈ n'.children ++ m'.children, childOk c := by
    rw [hrep.children]
    intro c hc
    rcases List.mem_append.mp hc with hc | hc
    · exact hn c hc
    · exact hm c hc
  exact ⟨fun c hc => hall c (List.mem_append_left _ hc),
    fun c hc => hall c (List.mem_append_right _ hc)⟩

/-- A parent without one of its children, with room for one more value. -/
structure ParentRoom (K : ℕ) (parent : ParentNode α (Child α (h + 1)))
    (up : Ancestors α (h + 1)) : Prop where
  room : parent.count < K
  max : parent.maxCount = K
  before : ∀ e ∈ parent.before, ChildOk K (h + 1) e.1
  after : ∀ e ∈ parent.after, ChildOk K (h + 1) e.2
  up : AncestorsOk K up

section ParentRoom

variable {parent : ParentNode α (Child α (h + 1))} {up : Ancestors α (h + 1)}
  {left right : Node α h}

/-- The parent takes a sibling to the right of the child. -/
theorem ParentRoom.ancestors_left (hparent : ParentRoom K parent up) (v : α)
    (hright : NodeOk K (ChildOk K h) right) :
    AncestorsOk K (.child { parent with after := (v, right) :: parent.after } up) := by
  have hroom := hparent.room
  unfold ParentNode.count at hroom
  refine ⟨⟨?_, ?_, hparent.max, hparent.before, ?_⟩, hparent.up⟩
  · unfold ParentNode.count
    simp only [List.length_cons]
    omega
  · unfold ParentNode.count
    simp only [List.length_cons]
    omega
  · intro e he
    rcases List.mem_cons.mp he with rfl | he
    · exact hright
    · exact hparent.after e he

/-- And one to its left. -/
theorem ParentRoom.ancestors_right (hparent : ParentRoom K parent up) (v : α)
    (hleft : NodeOk K (ChildOk K h) left) :
    AncestorsOk K (.child { parent with before := (left, v) :: parent.before } up) := by
  have hroom := hparent.room
  unfold ParentNode.count at hroom
  refine ⟨⟨?_, ?_, hparent.max, ?_, hparent.after⟩, hparent.up⟩
  · unfold ParentNode.count
    simp only [List.length_cons]
    omega
  · unfold ParentNode.count
    simp only [List.length_cons]
    omega
  · intro e he
    rcases List.mem_cons.mp he with rfl | he
    · exact hleft
    · exact hparent.before e he

/-- There is room at a place in the left one of two siblings. -/
theorem ParentRoom.madeRoom_left (hparent : ParentRoom K parent up) {v : α} {q : ℕ}
    {s : Slot α h} (hright : NodeOk K (ChildOk K h) right)
    (hplace : SamePlace s ⟨left.merge v right, q, .child parent up⟩) (hq : q ≤ left.count)
    (hroom : left.count < K) (hmax : left.maxCount = K)
    (hchildren : ∀ c ∈ left.children, ChildOk K h c) :
    MadeRoom K s
      ⟨left, q, .child { parent with after := (v, right) :: parent.after } up⟩ where
  position := hq
  room := hroom
  max := hmax
  children := hchildren
  up := hparent.ancestors_left v hright
  place := hplace.trans (slot_left parent up left right v hq)

/-- And at one in the right one. -/
theorem ParentRoom.madeRoom_right (hparent : ParentRoom K parent up) {v : α} {q : ℕ}
    {s : Slot α h} (hleft : NodeOk K (ChildOk K h) left)
    (hplace : SamePlace s ⟨left.merge v right, left.count + 1 + q, .child parent up⟩)
    (hq : q ≤ right.count) (hroom : right.count < K) (hmax : right.maxCount = K)
    (hchildren : ∀ c ∈ right.children, ChildOk K h c) :
    MadeRoom K s
      ⟨right, q, .child { parent with before := (left, v) :: parent.before } up⟩ where
  position := hq
  room := hroom
  max := hmax
  children := hchildren
  up := hparent.ancestors_right v hleft
  place := hplace.trans (slot_right parent up left right v)

/-- Without its nearest child on the left, a parent has room. -/
theorem ParentRoom.of_left {m : ℕ} {before : List (Node α h × α)} {after : List (α × Node α h)}
    {v : α} (hup : AncestorsOk K (.child ⟨m, (left, v) :: before, after⟩ up)) :
    ParentRoom K ⟨m, before, after⟩ up where
  room := by
    have hle := hup.1.le
    unfold ParentNode.count at hle ⊢
    simp only [List.length_cons] at hle ⊢
    omega
  max := hup.1.max
  before := fun e he => hup.1.before e (List.mem_cons_of_mem _ he)
  after := hup.1.after
  up := hup.2

/-- Nor without the nearest one on the right. -/
theorem ParentRoom.of_right {m : ℕ} {before : List (Node α h × α)} {after : List (α × Node α h)}
    {v : α} (hup : AncestorsOk K (.child ⟨m, before, (v, right) :: after⟩ up)) :
    ParentRoom K ⟨m, before, after⟩ up where
  room := by
    have hle := hup.1.le
    unfold ParentNode.count at hle ⊢
    simp only [List.length_cons] at hle ⊢
    omega
  max := hup.1.max
  before := hup.1.before
  after := fun e he => hup.1.after e (List.mem_cons_of_mem _ he)
  up := hup.2

end ParentRoom

theorem rebalanceLeft_spec {node left : Node α h} {insertPosition n : ℕ} {m : ℕ}
    {farther : List (Node α h × α)} {after : List (α × Node α h)} {v : α}
    {up : Ancestors α (h + 1)}
    (hfull : Full K ⟨node, insertPosition, .child ⟨m, (left, v) :: farther, after⟩ up⟩)
    (hpos : 1 ≤ n) (hle : n ≤ K - left.count) (hlt : left.count < K)
    (hserve : n ≤ insertPosition ∨ left.count + n < K) :
    ∃ s, rebalanceLeft node insertPosition ⟨m, (left, v) :: farther, after⟩ up left v farther n
        = some s ∧
      MadeRoom K ⟨node, insertPosition, .child ⟨m, (left, v) :: farther, after⟩ up⟩ s := by
  obtain ⟨hposition, hcount, hmax, hchildren, hup⟩ := hfull
  change insertPosition ≤ K at hposition
  change node.count = K at hcount
  change node.maxCount = K at hmax
  have hparent := ParentRoom.of_left hup
  have hleft : NodeOk K (ChildOk K h) left := hup.1.before _ List.mem_cons_self
  have hone := hleft.pos
  obtain ⟨left', v', node', hsome, hrep, hcountl, hcountn⟩ :=
    @BtreeNode.rebalanceRightToLeft_spec _ _ left node v n (by omega) hpos (by omega)
  obtain ⟨hokl, hokn⟩ := repartition_children hrep hleft.children hchildren
  have hmaxl := hrep.maxLeft.trans hleft.max
  have hmaxn := hrep.maxRight.trans hmax
  -- the place, counted from the left end of both nodes put together
  have hplace := (slot_right ⟨m, farther, after⟩ up left node v (q := insertPosition)).symm
  rw [← hrep.merged] at hplace
  unfold rebalanceLeft
  rw [hsome, Option.map_some]
  by_cases hin : insertPosition < n
  · -- what stood there has gone to the left sibling
    have hq : insertPosition + left'.count + 1 - n = left.count + 1 + insertPosition := by omega
    refine ⟨_, rfl, ?_⟩
    simp only [hin, if_true, hq]
    exact hparent.madeRoom_left ⟨by omega, by omega, hmaxn, hokn⟩ hplace (by omega) (by omega)
      hmaxl hokl
  · have hq : left.count + 1 + insertPosition = left'.count + 1 + (insertPosition - n) := by omega
    rw [hq] at hplace
    refine ⟨_, rfl, ?_⟩
    simp only [hin, if_false]
    exact hparent.madeRoom_right ⟨by omega, by omega, hmaxl, hokl⟩ hplace (by omega) (by omega)
      hmaxn hokn

theorem rebalanceRight_spec {node right : Node α h} {insertPosition n : ℕ} {m : ℕ}
    {before : List (Node α h × α)} {farther : List (α × Node α h)} {v : α}
    {up : Ancestors α (h + 1)}
    (hfull : Full K ⟨node, insertPosition, .child ⟨m, before, (v, right) :: farther⟩ up⟩)
    (hpos : 1 ≤ n) (hle : n ≤ K - right.count) (hlt : right.count < K)
    (hserve : insertPosition + n ≤ node.count ∨ right.count + n < K) :
    ∃ s, rebalanceRight node insertPosition ⟨m, before, (v, right) :: farther⟩ up v right farther n
        = some s ∧
      MadeRoom K ⟨node, insertPosition, .child ⟨m, before, (v, right) :: farther⟩ up⟩ s := by
  obtain ⟨hposition, hcount, hmax, hchildren, hup⟩ := hfull
  change insertPosition ≤ K at hposition
  change node.count = K at hcount
  change node.maxCount = K at hmax
  have hparent := ParentRoom.of_right hup
  have hright : NodeOk K (ChildOk K h) right := hup.1.after _ List.mem_cons_self
  have hone := hright.pos
  obtain ⟨node', v', right', hsome, hrep, hcountn, hcountr⟩ :=
    @BtreeNode.rebalanceLeftToRight_spec _ _ node right v n (by omega) hpos (by omega)
  obtain ⟨hokn, hokr⟩ := repartition_children hrep hchildren hright.children
  have hmaxn := hrep.maxLeft.trans hmax
  have hmaxr := hrep.maxRight.trans hright.max
  have hplace := (slot_left ⟨m, before, farther⟩ up node right v (q := insertPosition)
    (by omega)).symm
  rw [← hrep.merged] at hplace
  unfold rebalanceRight
  rw [hsome, Option.map_some]
  by_cases hin : node'.count < insertPosition
  · -- what stood there has gone to the right sibling
    obtain ⟨q, rfl⟩ : ∃ q, insertPosition = node'.count + 1 + q :=
      Nat.exists_eq_add_of_le hin
    have hq : node'.count + 1 + q - node'.count - 1 = q := by omega
    refine ⟨_, rfl, ?_⟩
    simp only [hin, if_true, hq]
    exact hparent.madeRoom_right ⟨by omega, by omega, hmaxn, hokn⟩ hplace (by omega) (by omega)
      hmaxr hokr
  · refine ⟨_, rfl, ?_⟩
    simp only [hin, if_false]
    exact hparent.madeRoom_left ⟨by omega, by omega, hmaxr, hokr⟩ hplace (by omega) (by omega)
      hmaxn hokn

/-- Splitting, below a parent that has room itself. -/
theorem splitNode_spec {node : Node α h} {insertPosition : ℕ}
    {parent : ParentNode α (Child α (h + 1))} {up : Ancestors α (h + 1)} (hK : 3 ≤ K)
    (hposition : insertPosition ≤ K) (hcount : node.count = K) (hmax : node.maxCount = K)
    (hchildren : ∀ c ∈ node.children, ChildOk K h c) (hparent : ParentRoom K parent up) :
    ∃ s, splitNode K node insertPosition parent up = some s ∧
      MadeRoom K ⟨node, insertPosition, .child parent up⟩ s := by
  -- the biased splits leave one part empty, and then the place is in that part
  have hsplit : node.splitCount insertPosition < node.count ∧
      (node.splitCount insertPosition = 0 → node.count ≤ insertPosition) ∧
      (node.count = node.splitCount insertPosition + 1 → insertPosition = 0) := by
    unfold BtreeNode.splitCount
    split
    · omega
    · split <;> omega
  obtain ⟨node', v, dest, hsome, hmerged, hmaxd, hcountn, hcountd⟩ :=
    @BtreeNode.split_spec _ _ node K insertPosition hsplit.1
  have hmaxn : node'.maxCount = K := by
    rw [← hmax, ← hmerged]
    rfl
  have hall : ∀ c ∈ node'.children ++ dest.children, ChildOk K h c := by
    rw [← BtreeNode.children_merge node' v, hmerged]
    exact hchildren
  have hokn : ∀ c ∈ node'.children, ChildOk K h c :=
    fun c hc => hall c (List.mem_append_left _ hc)
  have hokd : ∀ c ∈ dest.children, ChildOk K h c :=
    fun c hc => hall c (List.mem_append_right _ hc)
  have hplace : SamePlace (⟨node, insertPosition, .child parent up⟩ : Slot α h)
      ⟨node'.merge v dest, insertPosition, .child parent up⟩ := by
    rw [hmerged]
    exact samePlace_of_up rfl rfl node insertPosition
  unfold splitNode
  rw [hsome, Option.map_some]
  by_cases hin : node'.count < insertPosition
  · obtain ⟨q, rfl⟩ : ∃ q, insertPosition = node'.count + 1 + q :=
      Nat.exists_eq_add_of_le hin
    have hq : node'.count + 1 + q - node'.count - 1 = q := by omega
    refine ⟨_, rfl, ?_⟩
    simp only [hin, if_true, hq]
    exact hparent.madeRoom_right ⟨by omega, by omega, hmaxn, hokn⟩ hplace (by omega) (by omega)
      hmaxd hokd
  · refine ⟨_, rfl, ?_⟩
    simp only [hin, if_false]
    exact hparent.madeRoom_left ⟨by omega, by omega, hmaxd, hokd⟩ hplace (by omega) (by omega)
      hmaxn hokn

end Room

/-- Where there is room to the left, and what it takes. -/
theorem roomLeft_eq_some {h : ℕ} {parent : ParentNode α (Child α (h + 1))} {insertPosition : ℕ}
    {left : Node α h} {v : α} {farther : List (Node α h × α)} {n : ℕ}
    (hsome : roomLeft parent insertPosition = some (left, v, farther, n)) :
    parent = ⟨parent.maxCount, (left, v) :: farther, parent.after⟩ ∧
      left.count < left.maxCount ∧ 1 ≤ n ∧ n ≤ left.maxCount - left.count ∧
      (n ≤ insertPosition ∨ left.count + n < left.maxCount) := by
  obtain ⟨m, before, after⟩ := parent
  unfold roomLeft at hsome
  cases before with
  | nil => exact absurd hsome nofun
  | cons e before =>
      obtain ⟨left', v'⟩ := e
      simp only at hsome
      split at hsome
      · rename_i hroom
        simp only [Option.some.injEq, Prod.mk.injEq] at hsome
        obtain ⟨rfl, rfl, rfl, rfl⟩ := hsome
        exact ⟨rfl, hroom.1, one_le_toMove _ _, toMove_le _ hroom.1, hroom.2⟩
      · exact absurd hsome nofun

/-- Where there is room to the right, and what it takes. -/
theorem roomRight_eq_some {h : ℕ} {node : Node α h} {parent : ParentNode α (Child α (h + 1))}
    {insertPosition : ℕ} {right : Node α h} {v : α} {farther : List (α × Node α h)} {n : ℕ}
    (hsome : roomRight node parent insertPosition = some (v, right, farther, n)) :
    parent = ⟨parent.maxCount, parent.before, (v, right) :: farther⟩ ∧
      right.count < right.maxCount ∧ 1 ≤ n ∧ n ≤ right.maxCount - right.count ∧
      (insertPosition + n ≤ node.count ∨ right.count + n < right.maxCount) := by
  obtain ⟨m, before, after⟩ := parent
  unfold roomRight at hsome
  cases after with
  | nil => exact absurd hsome nofun
  | cons e after =>
      obtain ⟨v', right'⟩ := e
      simp only at hsome
      split at hsome
      · rename_i hroom
        simp only [Option.some.injEq, Prod.mk.injEq] at hsome
        obtain ⟨rfl, rfl, rfl, rfl⟩ := hsome
        exact ⟨rfl, hroom.1, one_le_toMove _ _, toMove_le _ hroom.1, hroom.2⟩
      · exact absurd hsome nofun

/-- **Making room never fails**, and keeps the place and the invariant: by induction on the
ancestors, a full parent being given room first. -/
theorem rebalanceOrSplit_spec {K : ℕ} (hK : 3 ≤ K) : {h : ℕ} → (node : Node α h) →
    (insertPosition : ℕ) → (up : Ancestors α h) → Full K ⟨node, insertPosition, up⟩ →
    ∃ s, rebalanceOrSplit K node insertPosition up = some s ∧
      MadeRoom K ⟨node, insertPosition, up⟩ s
  | h, node, insertPosition, .root, hfull => by
      -- the new parent of the old root has no values
      obtain ⟨s, hs, hroom⟩ := @splitNode_spec _ K h node insertPosition ⟨K, [], []⟩ .root hK
        hfull.position hfull.full hfull.max hfull.children
        ⟨show 0 < K by omega, rfl, fun e he => absurd he List.not_mem_nil,
          fun e he => absurd he List.not_mem_nil, trivial⟩
      refine ⟨s, ?_, ⟨hroom.position, hroom.room, hroom.max, hroom.children, hroom.up,
        (@samePlace_of_up _ _ .root (.child ⟨K, [], []⟩ .root) rfl rfl node insertPosition).trans
          hroom.place⟩⟩
      unfold rebalanceOrSplit
      rw [if_pos (hfull.full.trans hfull.max.symm)]
      exact hs
  | h, node, insertPosition, .child parent up, hfull => by
      have hparent := hfull.up.1
      unfold rebalanceOrSplit
      rw [if_pos (hfull.full.trans hfull.max.symm)]
      cases hleft : roomLeft parent insertPosition with
      | some room =>
          obtain ⟨left, v, farther, n⟩ := room
          obtain ⟨heq, hlt, hpos, hle, hserve⟩ := roomLeft_eq_some hleft
          rw [heq] at hfull ⊢
          have hmaxl : left.maxCount = K := (hfull.up.1.before _ List.mem_cons_self).max
          rw [hmaxl] at hlt hle hserve
          exact rebalanceLeft_spec hfull hpos hle hlt hserve
      | none =>
          cases hright : roomRight node parent insertPosition with
          | some room =>
              obtain ⟨v, right, farther, n⟩ := room
              obtain ⟨heq, hlt, hpos, hle, hserve⟩ := roomRight_eq_some hright
              rw [heq] at hfull ⊢
              have hmaxr : right.maxCount = K := (hfull.up.1.after _ List.mem_cons_self).max
              rw [hmaxr] at hlt hle hserve
              exact rebalanceRight_spec hfull hpos hle hlt hserve
          | none =>
              by_cases hfullParent : parent.count = parent.maxCount
              · have hclose := nodeOk_close.mpr ⟨hparent, (⟨by
                  rw [show node.count = K from hfull.full]; omega, hfull.full.le, hfull.max,
                  hfull.children⟩ : NodeOk K (ChildOk K h) node)⟩
                have hcount : (parent.close node).count = K := by
                  rw [BtreeNode.count_close, hfullParent, hparent.max]
                obtain ⟨s, hs, hroom⟩ := rebalanceOrSplit_spec hK (parent.close node)
                  parent.position up ⟨(BtreeNode.position_le_count parent node).trans_eq hcount,
                    hcount, hclose.max, hclose.children, hfull.up.2⟩
                -- the parent may be in another node now; the node is still its child
                obtain ⟨hb, ha⟩ := openAt_children s.position hroom.children
                obtain ⟨hnode, hbefore, hafter⟩ := hroom.place.reopen
                obtain ⟨s', hs', hroom'⟩ := @splitNode_spec _ K h node insertPosition
                  (s.node.openAt s.position).1 s.up hK hfull.position hfull.full hfull.max
                  hfull.children
                  ⟨by rw [BtreeNode.count_openAt _ hroom.position]; exact hroom.room,
                    hroom.max, hb, ha, hroom.up⟩
                refine ⟨s', ?_, ⟨hroom'.position, hroom'.room, hroom'.max, hroom'.children,
                  hroom'.up,
                  (samePlace_of_up hbefore hafter node insertPosition).trans hroom'.place⟩⟩
                rw [if_pos hfullParent, hs, Option.bind_some, hnode]
                exact hs'
              · have hcount : parent.count < K :=
                  Nat.lt_of_le_of_ne hparent.le (fun h => hfullParent (h.trans hparent.max.symm))
                obtain ⟨s, hs, hroom⟩ := splitNode_spec hK hfull.position hfull.full hfull.max
                  hfull.children
                  ⟨hcount, hparent.max, hparent.before, hparent.after, hfull.up.2⟩
                refine ⟨s, ?_, hroom⟩
                simp only [hfullParent, if_false]
                exact hs

end Btree

/-! ## The tree as a whole -/

/-- `btree`: the root, if there is one, and the size that an internal root keeps.  The first and
the last leaf, which the source keeps pointers to, are where `leftmost` and `rightmost` go. -/
structure Btree (α : Type) where
  root : Option (Btree.Tree α)
  rootSize : ℕ

namespace Btree

variable {κ α : Type}

/-- A new, empty `btree`. -/
def empty : Btree α := ⟨none, 0⟩

/-- The values of the tree, in order. -/
def values (b : Btree α) : List α :=
  match b.root with
  | none => []
  | some t => t.inorder

/-- `size()`: a root that is a leaf knows it itself. -/
def size (b : Btree α) : ℕ :=
  match b.root with
  | none => 0
  | some t => if t.height = 0 then t.root.count else b.rootSize

/-- The invariant of the nodes, and the size that the root keeps is right. -/
structure Ok (P : BtreeParams κ α) (b : Btree α) : Prop where
  root : ∀ t, b.root = some t → RootOk P.kNodeValues t
  size : ∀ t, b.root = some t → t.height ≠ 0 → b.rootSize = t.inorder.length

theorem values_of_root {b : Btree α} {t : Tree α} (h : b.root = some t) : b.values = t.inorder := by
  unfold values
  rw [h]

theorem values_of_none {b : Btree α} (h : b.root = none) : b.values = [] := by
  unfold values
  rw [h]

theorem ok_empty (P : BtreeParams κ α) : Ok P (empty : Btree α) :=
  ⟨fun _ h => absurd h nofun, fun _ h => absurd h nofun⟩

/-- A set of the numbers from 1 to 8. -/
def smallBtree : Btree ℤ := ⟨some smallTree, 8⟩

theorem smallBtree_ok : smallBtree.Ok smallSet := by
  constructor
  · rintro t ⟨⟩
    exact smallTree_ok
  · rintro t ⟨⟩ -
    rfl

/-- Below a leaf stand just its values. -/
theorem inorder_leaf (n : Node α 0) : BtreeNode.inorder (content 0) n = n.values := by
  have hrest : ∀ rest : List (α × Unit),
      afterContent (content 0) rest = rest.map Prod.fst := by
    intro rest
    induction rest with
    | nil => rfl
    | cons e rest ih => exact congrArg (e.1 :: ·) ih
  exact hrest n.rest

theorem length_inorder_leaf (n : Node α 0) :
    (BtreeNode.inorder (content 0) n).length = n.count := by
  rw [inorder_leaf]
  exact List.length_map _

/-- **`size()` counts the values.** -/
theorem size_eq {P : BtreeParams κ α} {b : Btree α} (hok : b.Ok P) :
    b.size = b.values.length := by
  unfold size values
  cases hroot : b.root with
  | none => rfl
  | some t =>
      simp only
      split
      · rename_i hzero
        obtain ⟨h, n⟩ := t
        obtain rfl : h = 0 := hzero
        exact (length_inorder_leaf n).symm
      · rename_i hne
        exact hok.size t hroot hne

/-! ## `internal_insert` -/

/-- Where a value is put that is to come before an iterator: into a leaf, if need be after the value
before the iterator. -/
def leafSlot : Iterator α → Option (Slot α 0)
  | ⟨0, node, position, up⟩ => some ⟨node, position, up⟩
  | ⟨h + 1, node, position, up⟩ =>
      match decrement ⟨h + 1, node, position, up⟩ with
      | some ⟨0, leaf, position', up'⟩ => some ⟨leaf, position' + 1, up'⟩
      | _ => none

theorem leafSlot_internal (h : ℕ) (node : Node α (h + 1)) (p : ℕ) (up : Ancestors α (h + 1)) :
    leafSlot ⟨h + 1, node, p, up⟩ =
      match decrement ⟨h + 1, node, p, up⟩ with
      | some ⟨0, leaf, position', up'⟩ => some ⟨leaf, position' + 1, up'⟩
      | _ => none := rfl

/-- Room in a leaf: a root that is not yet of full size grows, another full leaf is rebalanced
or split. -/
def makeRoom (K : ℕ) (s : Slot α 0) : Option (Slot α 0) :=
  if s.node.count = s.node.maxCount then
    if s.node.maxCount < K then
      match s.up with
      | .root => some ⟨{ s.node with maxCount := min K (2 * s.node.maxCount) }, s.position, .root⟩
      | .child _ _ => none
    else rebalanceOrSplit K s.node s.position s.up
  else some s

/-- The size that the root keeps, after a value has been put at the slot.  A new root starts with
the count of the leaf that was the root. -/
def sizeAfterInsert (K : ℕ) (s : Slot α 0) (rootSize : ℕ) : ℕ :=
  if s.node.count = s.node.maxCount then
    if s.node.maxCount < K then rootSize
    else
      match s.up with
      | .root => s.node.count + 1
      | .child _ _ => rootSize + 1
  else
    match s.up with
    | .root => rootSize
    | .child _ _ => rootSize + 1

/-- `internal_insert(iter, v)` -/
def internalInsert (P : BtreeParams κ α) (b : Btree α) (it : Iterator α) (v : α) :
    Option (Btree α × Iterator α) :=
  (leafSlot it).bind fun s =>
  (makeRoom P.kNodeValues s).bind fun s' =>
  (s'.node.insertValue s'.position v ()).map fun node =>
    (⟨some (s'.up.close node), sizeAfterInsert P.kNodeValues s b.rootSize⟩,
      ⟨0, node, s'.position, s'.up⟩)

/-- A place in a leaf, where the leaf may be a new root without values. -/
structure LeafOk (K : ℕ) (s : Slot α 0) : Prop where
  position : s.position ≤ s.node.count
  le : s.node.count ≤ s.node.maxCount
  pos : 1 ≤ s.node.maxCount
  max : s.node.maxCount ≤ K
  below : s.up = .root ∨ s.node.maxCount = K
  up : AncestorsOk K s.up

section Insert

variable {K : ℕ}

theorem RootOk.leafOk {node : Node α 0} {position : ℕ} {up : Ancestors α 0}
    (hok : RootOk K (up.close node)) (hp : position ≤ node.count) :
    LeafOk K ⟨node, position, up⟩ := by
  have hfocus := hok.focus
  refine ⟨hp, hfocus.le, hfocus.pos.trans hfocus.le, hfocus.max, ?_, hfocus.up⟩
  cases up with
  | root => exact Or.inl rfl
  | child parent up => exact Or.inr ((rootOk_close_child parent up node).mp hok).1.max

/-- The iterator at a slot of a leaf has the same values before and after it. -/
theorem before_slot (node : Node α 0) (p : ℕ) (up : Ancestors α 0) :
    (⟨0, node, p, up⟩ : Iterator α).before = (⟨node, p, up⟩ : Slot α 0).before :=
  congrArg (up.before ++ ·) (List.append_nil _)

/-- Going to the leaf keeps the place. -/
theorem leafSlot_spec {it : Iterator α} (hok : RootOk K it.tree)
    (hp : it.position ≤ it.node.count) :
    ∃ s, leafSlot it = some s ∧ s.up.close s.node = it.tree ∧ LeafOk K s ∧
      s.before = it.before ∧ s.rest = it.rest := by
  obtain ⟨h, node, position, up⟩ := it
  cases h with
  | zero =>
      exact ⟨⟨node, position, up⟩, rfl, rfl, hok.leafOk hp,
        (before_slot node position up).symm, rfl⟩
  | succ h =>
      have hchild : NodeOk K (ChildOk K h) (node.child position) :=
        hok.focus.children _ (BtreeNode.child_mem node position)
      have hpos := rightmost_pos h (node.child position) (.child (node.openAt position).1 up)
        hchild.pos hchild.children
      obtain ⟨htree, hb, hr, hzero, hcount⟩ :=
        rightmost_spec h (node.child position) (.child (node.openAt position).1 up)
      rw [close_child] at htree
      rw [before_child] at hb
      rw [after_child] at hr
      -- the value comes last in the leaf that the step back goes to
      rw [leafSlot_internal, decrement_internal]
      generalize rightmost h (node.child position) (.child (node.openAt position).1 up) = last at *
      obtain ⟨h', leaf, q, up'⟩ := last
      obtain rfl : h' = 0 := hzero
      change 1 ≤ q at hpos
      refine ⟨⟨leaf, q - 1 + 1, up'⟩, rfl, htree, ?_, ?_, ?_⟩
      · rw [Nat.sub_add_cancel hpos]
        refine RootOk.leafOk ?_ hcount.le
        rw [show up'.close leaf = up.close node from htree]
        exact hok
      · rw [Nat.sub_add_cancel hpos, ← before_slot, hb, List.append_assoc]
        rfl
      · rw [Nat.sub_add_cancel hpos]
        exact hr

/-- There is room in the leaf then, at the same place. -/
theorem makeRoom_spec (hK : 3 ≤ K) {s : Slot α 0} (hs : LeafOk K s) :
    ∃ s', makeRoom K s = some s' ∧ s'.position ≤ s'.node.count ∧
      s'.node.count < s'.node.maxCount ∧ s'.node.maxCount ≤ K ∧
      (s'.up = .root ∨ s'.node.maxCount = K) ∧ AncestorsOk K s'.up ∧
      s'.before = s.before ∧ s'.rest = s.rest := by
  obtain ⟨node, position, up⟩ := s
  have hle : node.count ≤ node.maxCount := hs.le
  have hpos : 1 ≤ node.maxCount := hs.pos
  unfold makeRoom
  by_cases hfull : node.count = node.maxCount
  · rw [if_pos hfull]
    by_cases hsmall : node.maxCount < K
    · rw [if_pos hsmall]
      obtain rfl : up = .root := by
        rcases hs.below with h | h
        · exact h
        · exact absurd hsmall (Nat.not_lt.mpr h.ge)
      refine ⟨_, rfl, hs.position, ?_, ?_, Or.inl rfl, trivial, rfl, rfl⟩
      · show node.count < min K (2 * node.maxCount)
        omega
      · exact Nat.min_le_left _ _
    · rw [if_neg hsmall]
      have hmax : node.maxCount = K := Nat.le_antisymm hs.max (Nat.not_lt.mp hsmall)
      have hp : position ≤ node.count := hs.position
      obtain ⟨s', hs', hroom⟩ := rebalanceOrSplit_spec hK node position up
        ⟨hp.trans_eq (hfull.trans hmax), hfull.trans hmax, hmax, fun _ _ => trivial, hs.up⟩
      exact ⟨s', hs', hroom.position, hroom.room.trans_eq hroom.max.symm, hroom.max.le,
        Or.inr hroom.max, hroom.up, hroom.place.before, hroom.place.rest⟩
  · rw [if_neg hfull]
    exact ⟨_, rfl, hs.position, Nat.lt_of_le_of_ne hle hfull, hs.max, hs.below, hs.up, rfl, rfl⟩

theorem height_close : {h : ℕ} → (up : Ancestors α h) → (n : Node α h) → h ≤ (up.close n).height
  | _, .root, _ => Nat.le_refl _
  | h, .child parent up, n => (Nat.le_succ h).trans (height_close up (parent.close n))

/-- A value put into a leaf that has room. -/
theorem insertValue_spec {s : Slot α 0} (v : α) (hp : s.position ≤ s.node.count)
    (hroom : s.node.count < s.node.maxCount) (hmax : s.node.maxCount ≤ K)
    (hbelow : s.up = .root ∨ s.node.maxCount = K) (hup : AncestorsOk K s.up) :
    ∃ node, s.node.insertValue s.position v () = some node ∧ RootOk K (s.up.close node) ∧
      (⟨0, node, s.position, s.up⟩ : Iterator α).before = s.before ∧
      (⟨0, node, s.position, s.up⟩ : Iterator α).rest = v :: s.rest ∧
      (⟨0, node, s.position, s.up⟩ : Iterator α).value? = some v := by
  obtain ⟨leaf, position, up⟩ := s
  change position ≤ leaf.count at hp
  have hlen : (leaf.rest.take position).length = position := by
    rw [List.length_take]
    exact Nat.min_eq_left hp
  have hcount : (⟨leaf.maxCount, leaf.first,
      leaf.rest.take position ++ (v, ()) :: leaf.rest.drop position⟩ : Node α 0).count
        = leaf.count + 1 := by
    unfold BtreeNode.count at *
    rw [List.length_append, List.length_cons, List.length_drop, hlen]
    omega
  have hentry : (⟨leaf.maxCount, leaf.first,
      leaf.rest.take position ++ (v, ()) :: leaf.rest.drop position⟩ : Node α 0).rest[position]?
        = some (v, ()) := by
    show (leaf.rest.take position ++ (v, ()) :: leaf.rest.drop position)[position]? = _
    rw [List.getElem?_append_right hlen.le, hlen, Nat.sub_self]
    rfl
  refine ⟨⟨leaf.maxCount, leaf.first,
    leaf.rest.take position ++ (v, ()) :: leaf.rest.drop position⟩, if_pos hp, ?_, ?_, ?_, ?_⟩
  · -- a small root may still have fewer values than other nodes
    change leaf.count < leaf.maxCount at hroom
    cases up with
    | root =>
        exact ⟨by rw [Ancestors.close, hcount]; omega, by rw [Ancestors.close, hcount]; exact hroom,
          hmax, fun h => absurd rfl h, fun _ _ => trivial⟩
    | child parent up =>
        have hK : leaf.maxCount = K := hbelow.resolve_left (Ancestors.child_ne_root parent up)
        exact (rootOk_close_child parent up _).mpr ⟨⟨by rw [hcount]; omega,
          by rw [hcount]; omega, hK, fun _ _ => trivial⟩, hup⟩
  · rw [before_slot, Slot.before_mk, Slot.before_mk]
    unfold BtreeNode.leftOf BtreeNode.openAt
    show up.before ++ beforeContent (content 0) (BtreeNode.openFrom position [] leaf.first
      (leaf.rest.take position ++ (v, ()) :: leaf.rest.drop position)).1 = _
    conv_rhs => rw [← List.take_append_drop position leaf.rest]
    rw [BtreeNode.openFrom_append _ _ _ _ _ hlen.ge, BtreeNode.openFrom_append _ _ _ _ _ hlen.ge]
  · rw [Iterator.rest_mk, BtreeNode.rightOf_value (content 0) hentry]
    unfold BtreeNode.rightOf
    show v :: ([] ++ afterContent (content 0)
      ((leaf.rest.take position ++ (v, ()) :: leaf.rest.drop position).drop (position + 1)))
        ++ up.after = _
    rw [List.drop_append, hlen, List.drop_eq_nil_of_le (by omega)]
    simp only [Nat.add_sub_cancel_left, List.drop_succ_cons, List.drop_zero, List.nil_append]
    rfl
  · unfold Iterator.value?
    rw [hentry]
    rfl

/-- The size that the root keeps is right after an insertion as well. -/
theorem sizeAfterInsert_eq {s s' : Slot α 0} {node : Node α 0} {rootSize : ℕ} {t : Tree α}
    (hleaf : LeafOk K s) (htree : s.up.close s.node = t)
    (hsize : t.height ≠ 0 → rootSize = t.inorder.length) (hs' : makeRoom K s = some s')
    (hheight : (s'.up.close node).height ≠ 0) :
    sizeAfterInsert K s rootSize = t.inorder.length + 1 := by
  obtain ⟨leaf, position, up⟩ := s
  unfold makeRoom at hs'
  unfold sizeAfterInsert
  cases up with
  | root =>
      obtain rfl := htree
      by_cases hfull : leaf.count = leaf.maxCount
      · rw [if_pos hfull] at hs' ⊢
        by_cases hsmall : leaf.maxCount < K
        · rw [if_pos hsmall] at hs'
          obtain rfl := Option.some.inj hs'
          exact absurd rfl hheight
        · rw [if_neg hsmall]
          exact congrArg (· + 1) (length_inorder_leaf leaf).symm
      · rw [if_neg hfull] at hs'
        obtain rfl := Option.some.inj hs'
        exact absurd rfl hheight
  | child parent up =>
      have hK : leaf.maxCount = K := hleaf.below.resolve_left (Ancestors.child_ne_root parent up)
      have hold : rootSize = t.inorder.length := by
        apply hsize
        -- below an internal root, so the root keeps the size
        rw [← htree]
        have : 1 ≤ (up.close (parent.close leaf)).height := height_close up (parent.close leaf)
        show (up.close (parent.close leaf)).height ≠ 0
        omega
      rw [hold]
      change leaf.maxCount = K at hK
      by_cases hfull : leaf.count = leaf.maxCount
      · rw [if_pos hfull, if_neg (show ¬leaf.maxCount < K by omega)]
      · rw [if_neg hfull]

/-- **Inserting puts the value at the iterator and changes nothing else**, whatever rebalancing and
splitting it takes: the tree keeps its invariant and its size, and the iterator returned points
at the new value. -/
theorem internalInsert_spec {P : BtreeParams κ α} {b : Btree α} {it : Iterator α} {s : Slot α 0}
    (v : α) (hroot : b.root = some it.tree) (hslot : leafSlot it = some s)
    (htree : s.up.close s.node = it.tree) (hleaf : LeafOk P.kNodeValues s)
    (hbefore : s.before = it.before) (hrest : s.rest = it.rest)
    (hsize : ∀ t, b.root = some t → t.height ≠ 0 → b.rootSize = t.inorder.length) :
    ∃ b' it', internalInsert P b it v = some (b', it') ∧ b'.Ok P ∧ b'.root = some it'.tree ∧
      it'.value? = some v ∧ it'.before = it.before ∧ it'.rest = v :: it.rest := by
  obtain ⟨s', hs', hp, hroom, hmax, hbelow, hup, hb, hr⟩ :=
    makeRoom_spec P.three_le_kNodeValues hleaf
  obtain ⟨node, hnode, hok, hb', hr', hv⟩ := insertValue_spec v hp hroom hmax hbelow hup
  refine ⟨⟨some (s'.up.close node), sizeAfterInsert P.kNodeValues s b.rootSize⟩,
    ⟨0, node, s'.position, s'.up⟩, ?_, ⟨?_, ?_⟩, rfl, hv, ?_, ?_⟩
  · unfold internalInsert
    rw [hslot, Option.bind_some, hs', Option.bind_some, hnode, Option.map_some]
  · intro t ht
    obtain rfl := Option.some.inj ht
    exact hok
  · intro t ht hheight
    obtain rfl := Option.some.inj ht
    have hold := it.inorder_tree
    have hnew := (⟨0, node, s'.position, s'.up⟩ : Iterator α).inorder_tree
    rw [hb', hr', hb, hr, hbefore, hrest] at hnew
    change (s'.up.close node).inorder = _ at hnew
    rw [hnew, List.length_append, List.length_cons]
    have := sizeAfterInsert_eq hleaf htree (hsize it.tree hroot) hs' hheight
    rw [hold, List.length_append] at this
    exact this
  · rw [hb', hb, hbefore]
  · rw [hr', hr, hrest]

end Insert

end Btree
