/-
# The hand-written dispatcher (`efficient_ir_processor` in `atlasdb/query/processor.h`)

`efficient_ir_processor` finds the handler for an edge by comparing the classes of its two
nodes in nested branches, instead of looking the classes up in the processor tree.  The
branch for a `logic_or` below a table asks for a table, and nodes and operations have no
branch as parents: `walk_efficient_iff` says which trees are dispatched as the processor
tree has it, whatever its handlers.
-/
import Atlasdb.Processor

open Ir Processor
open Forest (Event)

variable {Key H : Type}

/-! ## Two dispatches -/

/-- A processor tree: the handler at the path of two classes, the parent's first. -/
abbrev ProcessorTree (H : Type) := NodeType → NodeType → Option H

/-- `at_path<processor_tree, parent, current>`, for the classes of the two nodes. -/
def atPath (processorTree : ProcessorTree H) (current parent : Node Key) : Option H :=
  processorTree parent.type current.type

/-- `efficient_ir_processor<processor_tree>::operator()(current, parent)`: the handler that
is called. -/
def efficientIrProcessor (processorTree : ProcessorTree H) (current parent : Node Key) :
    Option H :=
  let parentType := parent.type
  let currentType := current.type
  if parentType = .table then
    if currentType = .operation then processorTree .table .operation
    else if currentType = .logicAnd then processorTree .table .logicAnd
    -- the source asks for a `table` once more, where its siblings ask for a `logic_or`
    else if currentType = .table then processorTree .table .logicOr
    else none
  else if parentType = .logicAnd then
    if currentType = .operation then processorTree .logicAnd .operation
    else if currentType = .logicAnd then processorTree .logicAnd .logicAnd
    else if currentType = .logicOr then processorTree .logicAnd .logicOr
    else none
  else if parentType = .logicOr then
    if currentType = .operation then processorTree .logicOr .operation
    else if currentType = .logicAnd then processorTree .logicOr .logicAnd
    else if currentType = .logicOr then processorTree .logicOr .logicOr
    else none
  else none

/-- The classes that may stand below a table, a `logic_and` or a `logic_or`. -/
def AllowedChild : NodeType → NodeType → Prop
  | .table, current => current ∈ [NodeType.logicAnd, .logicOr, .operation]
  | .logicAnd, current => current ∈ [NodeType.logicAnd, .logicOr, .operation]
  | .logicOr, current => current ∈ [NodeType.logicAnd, .logicOr, .operation]
  | _, _ => True

/-- The paths that no branch of the dispatcher asks for. -/
def Missed : NodeType → NodeType → Prop
  | .table, .logicOr => True
  | .node, _ => True
  | .operation, _ => True
  | _, _ => False

/-- On allowed children the dispatcher differs from the look-up exactly at the handlers of
the missed paths. -/
theorem efficientIrProcessor_eq_iff (processorTree : ProcessorTree H) {current parent : Node Key}
    (h : AllowedChild parent.type current.type) :
    efficientIrProcessor processorTree current parent = atPath processorTree current parent ↔
      (Missed parent.type current.type → processorTree parent.type current.type = none) := by
  unfold efficientIrProcessor atPath
  generalize parent.type = parentType at h ⊢
  generalize current.type = currentType at h ⊢
  -- on each pair of classes the two sides are the same look-up, or one of them is `none`
  cases parentType <;> cases currentType <;>
    simp [AllowedChild, Missed, eq_comm] at h ⊢

/-! ## Walks over trees -/

/-- A tree of nodes in which tables, `logic_and` and `logic_or` nodes have allowed children. -/
structure IrTree (Key : Type) where
  tree : NumberedTree
  nodes : ℕ → Node Key
  allowed : ∀ e ∈ tree.edges, AllowedChild (nodes e.1).type (nodes e.2).type

namespace IrTree

/-- The handler that is called at an event of the search, if any. -/
def examineEdge (dispatch : Node Key → Node Key → Option H) (nodes : ℕ → Node Key) :
    Event ℕ → Option H
  | .discover _ => none
  | .examine u v => dispatch (nodes v) (nodes u)

/-- What is called at the events of the search, in their order. -/
def walk (t : IrTree Key) (dispatch : Node Key → Node Key → Option H) : List (Option H) :=
  t.tree.search.map (examineEdge dispatch t.nodes)

/-- Two dispatches agree along a walk exactly when they agree on all edges. -/
theorem walk_eq_walk_iff (t : IrTree Key) {dispatch dispatch' : Node Key → Node Key → Option H} :
    t.walk dispatch = t.walk dispatch' ↔
      ∀ e ∈ t.tree.edges, dispatch (t.nodes e.2) (t.nodes e.1)
        = dispatch' (t.nodes e.2) (t.nodes e.1) := by
  unfold walk
  rw [List.map_inj_left]
  constructor
  · intro h e he
    exact h (.examine e.1 e.2) (NumberedTree.examine_mem_search.mpr he)
  · intro h event hevent
    cases event with
    | discover v => rfl
    | examine u v => exact h (u, v) (NumberedTree.examine_mem_search.mp hevent)

/-- **When the dispatcher agrees with the processor tree.**  For every processor tree and
every tree of nodes: if and only if there is no handler at the paths of those edges that lead
from a table to a `logic_or`, or down from a plain node or an operation. -/
theorem walk_efficient_iff (processorTree : ProcessorTree H) (t : IrTree Key) :
    t.walk (efficientIrProcessor processorTree) = t.walk (atPath processorTree) ↔
      ∀ e ∈ t.tree.edges, Missed (t.nodes e.1).type (t.nodes e.2).type →
        processorTree (t.nodes e.1).type (t.nodes e.2).type = none := by
  rw [walk_eq_walk_iff]
  refine forall₂_congr fun e he => ?_
  exact efficientIrProcessor_eq_iff processorTree (t.allowed e he)

/-- A table with a `logic_or` and an operation below it. -/
def tableOverLogicOr : IrTree ℕ where
  tree := { root := 0, children := .tree 1 .nil (.tree 2 .nil .nil), numbered := by decide }
  nodes
    | 0 => .table {}
    | 1 => .logicOr {}
    | _ => .operation {}
  allowed := by
    have hedges : ∀ e ∈ [(0, 1), (0, 2)], e = (0, 1) ∨ e = (0, 2) := by decide
    intro e he
    rcases hedges e he with rfl | rfl
    · show NodeType.logicOr ∈ [NodeType.logicAnd, .logicOr, .operation]
      decide
    · show NodeType.operation ∈ [NodeType.logicAnd, .logicOr, .operation]
      decide

/-- The handler for the `logic_or` below the table is not called. -/
theorem not_walk_efficient_tableOverLogicOr :
    ¬ ∀ (H : Type) (processorTree : ProcessorTree H) (t : IrTree ℕ),
      t.walk (efficientIrProcessor processorTree) = t.walk (atPath processorTree) := by
  intro hall
  have heq := hall Unit (fun _ _ => some ()) tableOverLogicOr
  have hcall := walk_eq_walk_iff tableOverLogicOr |>.mp heq (0, 1) List.mem_cons_self
  exact absurd hcall (by decide)

/-- The executor has no handler at a missed path. -/
theorem executorTree_of_missed {parent current : NodeType} (h : Missed parent current) :
    executorTree parent current = none := by
  cases parent <;> cases current <;> first | rfl | exact h.elim

/-- With the processor tree of the executor nothing is missed. -/
theorem walk_executorTree (t : IrTree Key) :
    t.walk (efficientIrProcessor executorTree) = t.walk (atPath executorTree) := by
  rw [walk_eq_walk_iff]
  intro e he
  rw [efficientIrProcessor_eq_iff executorTree (t.allowed e he)]
  exact executorTree_of_missed

end IrTree
