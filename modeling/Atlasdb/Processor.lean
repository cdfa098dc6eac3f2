/-
# The processors of a query (`atlasdb/query/processor.h`)

`IrInitializer`, `StorageAttacher` and `QueryExecutor` are the three processors with their
overloads of `operator()`; the processor trees say which overload, if any, belongs to a
node of one class below a node of another.  The main results are about the steps of the
executor, which merge the primary keys of an index, in the order of the index keys, with a
set in the order of the primary keys:

* `QueryExecutor.intersects_iff` : at a `logic_and` this is the intersection only if no
  common key comes behind a larger primary key;
* `QueryExecutor.uniteAll_spec` : at a `logic_or` it is the union in all cases, so that the
  order of the operations does not matter.
-/
import Atlasdb.Ir
import Atlasdb.SetMerge
import Atlasdb.StepRun

open Ir

variable {Ikey Key : Type}

/-! ## `ir_initializer` -/

/-- `ir_initializer`. -/
structure IrInitializer where
  tableName : String := ""
  indexes : List String := []

namespace IrInitializer

/-- `operator()(table&)`. -/
def onTable (p : IrInitializer) (t : Table Key) : IrInitializer := { p with tableName := t.name }

/-- `operator()(operation&)`. -/
def onOperation (p : IrInitializer) (op : Operation) : IrInitializer :=
  { p with indexes := p.indexes ++ [op.name] }

/-- The overloads of `operator()`. -/
inductive Overload where
  | table
  | operation
  deriving DecidableEq

/-- A call of an overload on a node of its class. -/
def call (p : IrInitializer) : Overload → Node Key → IrInitializer
  | .table, .table t => p.onTable t
  | .operation, .operation op => p.onOperation op
  | _, _ => p

end IrInitializer

/-! ## `storage_attacher` -/

/-- `storage_attacher`; the pointer to the storehouse is never null. -/
structure StorageAttacher where
  storehouse : BasicStorehouse

namespace StorageAttacher

/-- The constructor, given the one of `storehouse`. -/
def make (newStorehouse : String → List String → BasicStorehouse) (table : String)
    (indexes : List String) : StorageAttacher := ⟨newStorehouse table indexes⟩

/-- `operator()(table&)`. -/
def onTable (p : StorageAttacher) (t : Table Key) : Table Key :=
  { t with repository := some p.storehouse.self }

/-- `operator()(operation&)`, which assigns the storehouse to the index pointer. -/
def onOperation (p : StorageAttacher) (op : Operation) : Operation :=
  { op with index := some p.storehouse.self }

/-- The overloads of `operator()`. -/
inductive Overload where
  | table
  | operation
  deriving DecidableEq

/-- A call of an overload on a node of its class. -/
def call (p : StorageAttacher) : Overload → Node Key → Node Key
  | .table, .table t => .table (p.onTable t)
  | .operation, .operation op => .operation (p.onOperation op)
  | _, n => n

end StorageAttacher

/-! ## `query_executor` -/

namespace QueryExecutor

variable [LinearOrder Ikey] [LinearOrder Key]

/-- What is written through an output iterator into a set. -/
def output (keyset : Finset Key) (written : List Key) : Finset Key :=
  written.foldl (fun s k => insert k s) keyset

section Overloads

variable (heap : Address → BasicIndex Ikey Key)

/-- `operator()(operation&, table&)`; `none` is the dereference of a null index. -/
def onTable (op : Operation) (t : Table Key) : Option (Table Key) :=
  op.index.map fun a => { t with keyset := output t.keyset (heap a).primaryKeys }

/-- `operator()(operation&, logic_and&)`. -/
def onLogicAnd (op : Operation) (l : LogicAnd Key) : Option (LogicAnd Key) :=
  op.index.map fun a =>
    let keyset := output ∅ (SetMerge.setIntersection (heap a).primaryKeys l.keyset.sort)
    { l with keyset := keyset }

/-- `operator()(operation&, logic_or&)`. -/
def onLogicOr (op : Operation) (l : LogicOr Key) : Option (LogicOr Key) :=
  op.index.map fun a =>
    let keyset := output ∅ (SetMerge.setUnion (heap a).primaryKeys l.keyset.sort)
    { l with keyset := keyset }

/-- The overloads of `operator()`. -/
inductive Overload where
  | table
  | logicAnd
  | logicOr
  deriving DecidableEq

/-- A call of an overload on an operation and a node above it, of its classes; the result
is what becomes of the latter. -/
def call : Overload → Node Key → Node Key → Option (Node Key)
  | .table, .operation op, .table t => (onTable heap op t).map .table
  | .logicAnd, .operation op, .logicAnd l => (onLogicAnd heap op l).map .logicAnd
  | .logicOr, .operation op, .logicOr l => (onLogicOr heap op l).map .logicOr
  | _, _, n => some n

end Overloads

/-- Writing into a set adds what is written. -/
theorem mem_output {keyset : Finset Key} {written : List Key} {k : Key} :
    k ∈ output keyset written ↔ k ∈ keyset ∨ k ∈ written := by
  induction written generalizing keyset with
  | nil => simp [output]
  | cons k' written ih =>
      rw [output, List.foldl_cons, ← output, ih, Finset.mem_insert, List.mem_cons]
      tauto

variable (heap : Address → BasicIndex Ikey Key) (name : String) (a : Address)

/-- The step at a table adds the primary keys in the index. -/
theorem mem_onTable (t : Table Key) : ∃ t', onTable heap ⟨name, some a⟩ t = some t' ∧
    ∀ k, k ∈ t'.keyset ↔ k ∈ t.keyset ∨ k ∈ (heap a).primaryKeys :=
  ⟨_, rfl, fun _ => mem_output⟩

/-- Of the keyset of a `logic_and`, the step keeps the records of the sequence of primary
keys in the index. -/
theorem mem_onLogicAnd (l : LogicAnd Key) : ∃ l', onLogicAnd heap ⟨name, some a⟩ l = some l' ∧
    ∀ k, k ∈ l'.keyset ↔ k ∈ l.keyset ∧ SetMerge.IsRecord (heap a).primaryKeys k := by
  refine ⟨_, rfl, fun k => ?_⟩
  rw [mem_output, SetMerge.mem_setIntersection (Finset.sortedLT_sort l.keyset).pairwise,
    Finset.mem_sort]
  simp

/-! ### Intersection -/

/-- The step of an operation with the index `a` intersects: of the keyset of the `logic_and`
it leaves the primary keys in the index. -/
def Intersects (l : LogicAnd Key) : Prop :=
  ∃ l', onLogicAnd heap ⟨name, some a⟩ l = some l' ∧
    l'.keyset = l.keyset ∩ (heap a).primaryKeys.toFinset

/-- **When the step at a `logic_and` intersects.**  For every keyset and every index: if and
only if each key of the set that occurs in the index is, at its first occurrence, larger
than all the primary keys in front of it. -/
theorem intersects_iff (l : LogicAnd Key) :
    Intersects heap name a l ↔ ∀ k ∈ l.keyset, k ∈ (heap a).primaryKeys →
      SetMerge.IsRecord (heap a).primaryKeys k := by
  obtain ⟨l', hl', hmem⟩ := mem_onLogicAnd heap name a l
  have heq : Intersects heap name a l ↔
      l'.keyset = l.keyset ∩ (heap a).primaryKeys.toFinset := by
    unfold Intersects
    rw [hl']
    simp
  rw [heq, Finset.ext_iff]
  refine forall_congr' fun k => ?_
  rw [hmem, Finset.mem_inter, List.mem_toFinset]
  have hrec : SetMerge.IsRecord (heap a).primaryKeys k → k ∈ (heap a).primaryKeys :=
    SetMerge.IsRecord.mem
  tauto

/-- An index with the primary keys 2 and 1 under the index keys 1 and 2. -/
def descending : BasicIndex ℕ ℕ where
  container := [(1, 2), (2, 1)]
  ordered := by decide

/-- The step loses the key 1 of a `logic_and` with the keys 1 and 2. -/
theorem not_intersects_descending :
    ¬ ∀ (heap : Address → BasicIndex ℕ ℕ) (name : String) (a : Address) (l : LogicAnd ℕ),
      Intersects heap name a l := by
  intro hall
  obtain ⟨l', hl', hmem⟩ := mem_onLogicAnd (fun _ => descending) "" 0 ⟨{1, 2}⟩
  obtain ⟨l'', hl'', heq⟩ := hall (fun _ => descending) "" 0 ⟨{1, 2}⟩
  obtain rfl : l' = l'' := Option.some.inj (hl'.symm.trans hl'')
  have hin : (1 : ℕ) ∈ l'.keyset := by
    rw [heq]
    decide
  exact absurd ((hmem 1).mp hin).2 (by decide)

/-! ### Union -/

/-- The step at a `logic_or` adds the primary keys in the index. -/
theorem mem_onLogicOr (l : LogicOr Key) : ∃ l', onLogicOr heap ⟨name, some a⟩ l = some l' ∧
    ∀ k, k ∈ l'.keyset ↔ k ∈ l.keyset ∨ k ∈ (heap a).primaryKeys := by
  refine ⟨_, rfl, fun k => ?_⟩
  rw [mem_output, SetMerge.mem_setUnion, Finset.mem_sort]
  simp [or_comm]

/-- The steps of several operations at a `logic_or`, one after another. -/
def uniteAll (ops : List Operation) (l : LogicOr Key) : Option (LogicOr Key) :=
  StepRun.run (fun l op => onLogicOr heap op l) l ops

/-- They add the primary keys in all the indexes. -/
theorem mem_uniteAll {ops : List Operation} (hops : ∀ op ∈ ops, op.index ≠ none)
    (l : LogicOr Key) : ∃ l', uniteAll heap ops l = some l' ∧
      ∀ k, k ∈ l'.keyset ↔ k ∈ l.keyset ∨ ∃ op ∈ ops, k ∈ indexKeys heap (.operation op) := by
  induction ops generalizing l with
  | nil => exact ⟨l, rfl, by simp⟩
  | cons op ops ih =>
      obtain ⟨hop, hrest⟩ := List.forall_mem_cons.mp hops
      obtain ⟨name, index⟩ := op
      obtain ⟨a, rfl⟩ : ∃ a, index = some a := Option.ne_none_iff_exists'.mp hop
      obtain ⟨l₁, hl₁, hmem₁⟩ := mem_onLogicOr heap name a l
      obtain ⟨l', hl', hmem⟩ := ih hrest l₁
      refine ⟨l', ?_, fun k => ?_⟩
      · unfold uniteAll at hl' ⊢
        rw [StepRun.run_cons, hl₁, Option.bind_some, hl']
      · have hkeys := mem_indexKeys heap (n := .operation ⟨name, some a⟩) rfl k
        rw [hmem, hmem₁, List.exists_mem_cons_iff, hkeys, or_assoc]

/-- The result depends on the set of the operations only. -/
theorem uniteAll_congr {ops ops' : List Operation} (hops : ∀ op ∈ ops, op.index ≠ none)
    (hsame : ∀ op, op ∈ ops' ↔ op ∈ ops) (l : LogicOr Key) :
    uniteAll heap ops' l = uniteAll heap ops l := by
  obtain ⟨l₁, hl₁, hmem₁⟩ := mem_uniteAll heap hops l
  obtain ⟨l₂, hl₂, hmem₂⟩ := mem_uniteAll heap (fun op hop => hops op ((hsame op).mp hop)) l
  have hkeys : l₂.keyset = l₁.keyset := by
    ext k
    rw [hmem₁, hmem₂]
    simp only [hsame]
  obtain ⟨keyset₁⟩ := l₁
  obtain ⟨keyset₂⟩ := l₂
  obtain rfl : keyset₂ = keyset₁ := hkeys
  rw [hl₁, hl₂]

/-- **The steps at a `logic_or` unite.**  For every keyset of a `logic_or` and all operations
that carry an index, whatever the indexes hold: the operations leave the keyset united with
all their primary keys, in any order, and any of them can be applied again without effect. -/
theorem uniteAll_spec (ops : List Operation) (l : LogicOr Key)
    (hops : ∀ op ∈ ops, op.index ≠ none) :
    (∃ l', uniteAll heap ops l = some l' ∧
        (l'.keyset : Set Key) =
          (l.keyset : Set Key) ∪ ⋃ op ∈ ops, indexKeys heap (.operation op)) ∧
      (∀ ops', ops'.Perm ops → uniteAll heap ops' l = uniteAll heap ops l) ∧
      ∀ op ∈ ops, uniteAll heap (ops ++ [op]) l = uniteAll heap ops l := by
  refine ⟨?_, fun ops' hperm => ?_, fun op hop => ?_⟩
  · obtain ⟨l', hl', hmem⟩ := mem_uniteAll heap hops l
    refine ⟨l', hl', ?_⟩
    ext k
    rw [Finset.mem_coe, hmem]
    simp
  · exact uniteAll_congr heap hops (fun op => hperm.mem_iff) l
  · refine uniteAll_congr heap hops (fun op' => ?_) l
    rw [List.mem_append, List.mem_singleton, or_iff_left_iff_imp]
    rintro rfl
    exact hop

/-- Two indexes whose primary keys are not in order, at the addresses 0 and 1. -/
def twoIndexes : Address → BasicIndex ℕ ℕ
  | 0 => descending
  | _ => { container := [(1, 9), (1, 4), (2, 6)], ordered := by decide }

/-- Two operations, one for each index. -/
def twoOperations : List Operation := [⟨"age", some 0⟩, ⟨"town", some 1⟩]

theorem uniteAll_spec_twoOperations :
    (∀ op ∈ twoOperations, op.index ≠ none) ∧
      ((∃ l', uniteAll twoIndexes twoOperations ⟨{3}⟩ = some l' ∧
          (l'.keyset : Set ℕ) = (({3} : Finset ℕ) : Set ℕ) ∪
            ⋃ op ∈ twoOperations, indexKeys twoIndexes (.operation op)) ∧
        (∀ ops', ops'.Perm twoOperations →
          uniteAll twoIndexes ops' ⟨{3}⟩ = uniteAll twoIndexes twoOperations ⟨{3}⟩) ∧
        ∀ op ∈ twoOperations, uniteAll twoIndexes (twoOperations ++ [op]) ⟨{3}⟩
          = uniteAll twoIndexes twoOperations ⟨{3}⟩) := by
  have hops : ∀ op ∈ twoOperations, op.index ≠ none := by decide
  exact ⟨hops, uniteAll_spec twoIndexes twoOperations ⟨{3}⟩ hops⟩

end QueryExecutor

/-! ## The processor trees -/

namespace Processor

/-- `processor_wrapper<storage_attacher, table>`. -/
def ap : StorageAttacher.Overload := .table

/-- `processor_wrapper<storage_attacher, operation>`. -/
def ap2 : StorageAttacher.Overload := .operation

/-- `processor_wrapper<query_executor, operation, table>`. -/
def ep : QueryExecutor.Overload := .table

/-- `processor_wrapper<query_executor, operation, logic_and>`. -/
def ep2 : QueryExecutor.Overload := .logicAnd

/-- `processor_wrapper<query_executor, operation, logic_or>`. -/
def ep3 : QueryExecutor.Overload := .logicOr

/-- `initializer_tree`: the entry for a class of parents and one of their children, `none`
for `nullptr_t` and where there is no entry. -/
def initializerTree : NodeType → NodeType → Option IrInitializer.Overload
  | .node, .table => none
  | .table, .logicAnd => none
  | .table, .logicOr => none
  | .table, .operation => none
  | .logicAnd, .logicAnd => none
  | .logicAnd, .logicOr => none
  | .logicAnd, .operation => none
  | .logicOr, .logicAnd => none
  | .logicOr, .logicOr => none
  | .logicOr, .operation => none
  | _, _ => none

/-- `attacher_tree`. -/
def attacherTree : NodeType → NodeType → Option StorageAttacher.Overload
  | .node, .table => some ap
  | .table, .logicAnd => none
  | .table, .logicOr => none
  | .table, .operation => some ap2
  | .logicAnd, .logicAnd => none
  | .logicAnd, .logicOr => none
  | .logicAnd, .operation => some ap2
  | .logicOr, .logicAnd => none
  | .logicOr, .logicOr => none
  | .logicOr, .operation => some ap2
  | _, _ => none

/-- `executor_tree`. -/
def executorTree : NodeType → NodeType → Option QueryExecutor.Overload
  | .node, .table => none
  | .table, .logicAnd => none
  | .table, .logicOr => none
  | .table, .operation => some ep
  | .logicAnd, .logicAnd => none
  | .logicAnd, .logicOr => none
  | .logicAnd, .operation => some ep2
  | .logicOr, .logicAnd => none
  | .logicOr, .logicOr => none
  | .logicOr, .operation => some ep3
  | _, _ => none

/-- No class of nodes is wired to the initializer. -/
theorem initializerTree_eq_none (parent current : NodeType) :
    initializerTree parent current = none := by
  cases parent <;> cases current <;> rfl

/-- Only operations are handed to the overload for operations. -/
theorem eq_operation_of_ap2 {parent current : NodeType}
    (h : attacherTree parent current = some ap2) : current = .operation := by
  cases parent <;> cases current <;> simp [attacherTree, ap, ap2] at h ⊢

/-- Operations are handed to no other overload. -/
theorem attacherTree_operation (parent : NodeType) :
    attacherTree parent .operation = some ap2 ∨ attacherTree parent .operation = none := by
  cases parent <;> simp [attacherTree]

/-- Where the executor is run on an operation, the attacher is. -/
theorem attacherTree_of_executorTree {parent current : NodeType}
    (h : (executorTree parent current).isSome) : attacherTree parent current = some ap2 := by
  cases parent <;> cases current <;> simp [executorTree, attacherTree] at h ⊢

/-- The three dispatches of the executor. -/
theorem executorTree_cases {child parent : Node Key} {o : QueryExecutor.Overload}
    (ho : executorTree parent.type child.type = some o) : ∃ op, child = .operation op ∧
      ((∃ t, parent = .table t ∧ o = ep) ∨ (∃ l, parent = .logicAnd l ∧ o = ep2) ∨
        ∃ l, parent = .logicOr l ∧ o = ep3) := by
  cases child with
  | operation op =>
      refine ⟨op, rfl, ?_⟩
      cases parent <;> simp [executorTree, Node.type] at ho ⊢ <;> exact ho.symm
  | node | table | logicAnd | logicOr =>
      cases parent <;> simp [executorTree, Node.type] at ho

variable [LinearOrder Ikey] [LinearOrder Key] (heap : Address → BasicIndex Ikey Key)

/-- A dispatched call of the executor fails on a null index. -/
theorem call_eq_none {child parent : Node Key} {o : QueryExecutor.Overload}
    (ho : executorTree parent.type child.type = some o) (hnull : child.index = none) :
    QueryExecutor.call heap o child parent = none := by
  obtain ⟨op, rfl, ⟨t, rfl, rfl⟩ | ⟨l, rfl, rfl⟩ | ⟨l, rfl, rfl⟩⟩ := executorTree_cases ho
  all_goals
    rw [Node.index] at hnull
    simp [QueryExecutor.call, QueryExecutor.onTable, QueryExecutor.onLogicAnd,
      QueryExecutor.onLogicOr, ep, ep2, ep3, hnull]

/-- A dispatched call of the executor on an operation with an index changes the keyset of the
parent and nothing else; a table gets the primary keys in the index. -/
theorem call_spec {child parent : Node Key} {o : QueryExecutor.Overload}
    (ho : executorTree parent.type child.type = some o) (hindex : child.index ≠ none) :
    ∃ parent', QueryExecutor.call heap o child parent = some parent' ∧
      parent'.type = parent.type ∧ parent'.index = parent.index ∧
      (parent.type = .table → ∀ k, k ∈ parent'.keyset ↔
        k ∈ parent.keyset ∨ k ∈ indexKeys heap child) := by
  obtain ⟨⟨name, index⟩, rfl, hparent⟩ := executorTree_cases ho
  obtain ⟨a, rfl⟩ : ∃ a, index = some a := Option.ne_none_iff_exists'.mp hindex
  rcases hparent with ⟨t, rfl, rfl⟩ | ⟨l, rfl, rfl⟩ | ⟨l, rfl, rfl⟩
  · obtain ⟨t', ht', hmem⟩ := QueryExecutor.mem_onTable heap name a t
    refine ⟨.table t', by rw [ep, QueryExecutor.call, ht']; rfl, rfl, rfl, fun _ k => ?_⟩
    rw [mem_indexKeys heap (n := .operation ⟨name, some a⟩) rfl]
    exact hmem k
  · exact ⟨_, rfl, rfl, rfl, fun h => by simp [Node.type] at h⟩
  · exact ⟨_, rfl, rfl, rfl, fun h => by simp [Node.type] at h⟩

end Processor
