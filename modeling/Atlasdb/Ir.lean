/-
# The intermediate representation of a query (`atlasdb/query/ir.h`, `ir_tree.h`)

A query is a graph of numbered vertices, an `ir_tree`, with an object of one of five
classes at each vertex.  Below a table the inner vertices are `logic_and` and `logic_or`
nodes and the leaves are operations; `Query` is the type of such trees, and
`Query.meaning` says which set of primary keys a query denotes.
-/
import Atlasdb.DepthFirst
import Atlasdb.Storage

namespace Ir

/-! ## The nodes -/

/-- `table`. -/
structure Table (Key : Type) where
  name : String := ""
  keyset : Finset Key := ∅
  repository : Option Address := none

/-- `logic_and`. -/
structure LogicAnd (Key : Type) where
  keyset : Finset Key := ∅

/-- `logic_or`. -/
structure LogicOr (Key : Type) where
  keyset : Finset Key := ∅

/-- `operation`; `none` is a null `index_ptr`. -/
structure Operation where
  name : String := ""
  index : Option Address := none

/-- A `node` of one of its classes. -/
inductive Node (Key : Type) where
  | node
  | table (t : Table Key)
  | logicAnd (l : LogicAnd Key)
  | logicOr (l : LogicOr Key)
  | operation (op : Operation)

/-- The classes of nodes, as `typeid` tells them apart. -/
inductive NodeType where
  | node
  | table
  | logicAnd
  | logicOr
  | operation
  deriving DecidableEq, Repr

namespace Node

variable {Key : Type}

/-- The class of a node. -/
def type : Node Key → NodeType
  | .node => .node
  | .table _ => .table
  | .logicAnd _ => .logicAnd
  | .logicOr _ => .logicOr
  | .operation _ => .operation

/-- `keyset()` of the nodes that have one. -/
def keyset : Node Key → Finset Key
  | .table t => t.keyset
  | .logicAnd l => l.keyset
  | .logicOr l => l.keyset
  | _ => ∅

/-- The index pointer of an operation. -/
def index : Node Key → Option Address
  | .operation op => op.index
  | _ => none

end Node

/-! ## Queries and their meaning -/

variable {Ikey Key : Type} [LinearOrder Ikey]

/-- What may stand at a vertex with the given forest below it: a leaf is an operation that
carries an index, an inner vertex is a `logic_and` with at least one child or a `logic_or`,
both with the empty keyset of their constructors. -/
def Allowed (below : Forest ℕ) : Node Key → Prop
  | .operation op => below = .nil ∧ op.index ≠ none
  | .logicAnd l => below ≠ .nil ∧ l.keyset = ∅
  | .logicOr l => l.keyset = ∅
  | _ => False

/-- Every vertex of the forest has a node that is allowed there. -/
def WellFormed (nodes : ℕ → Node Key) : Forest ℕ → Prop
  | .nil => True
  | .tree v below rest =>
      Allowed below (nodes v) ∧ WellFormed nodes below ∧ WellFormed nodes rest

/-- A query: its root is a table with an empty keyset and one child. -/
structure Query (Key : Type) where
  tree : NumberedTree
  nodes : ℕ → Node Key
  child : ℕ
  below : Forest ℕ
  one_child : tree.children = .tree child below .nil
  root_table : (nodes tree.root).type = .table
  root_keyset : (nodes tree.root).keyset = ∅
  wellFormed : WellFormed nodes tree.children

section Meaning

variable (heap : Address → BasicIndex Ikey Key)

/-- The primary keys in the index of an operation: those of its entries, under any index key. -/
def indexKeys (n : Node Key) : Set Key :=
  {k | ∃ a ∈ n.index, ∃ ikey, (ikey, k) ∈ (heap a).container}

/-- The set that a node means, given the meanings of its children. -/
def meaning (children : List (Set Key)) : Node Key → Set Key
  | .operation op => indexKeys heap (.operation op)
  | .logicAnd _ => {k | ∀ S ∈ children, k ∈ S}
  | .logicOr _ => {k | ∃ S ∈ children, k ∈ S}
  | _ => ∅

/-- The meanings of the trees of a forest, in order. -/
def meanings (nodes : ℕ → Node Key) : Forest ℕ → List (Set Key)
  | .nil => []
  | .tree v below rest => meaning heap (meanings nodes below) (nodes v) :: meanings nodes rest

/-- What a query means: the meaning of the child of its table. -/
def Query.meaning (q : Query Key) : Set Key :=
  Ir.meaning heap (meanings heap q.nodes q.below) (q.nodes q.child)

end Meaning

/-- A node of the class of operations is one. -/
theorem Node.exists_operation {n : Node Key} (hn : n.type = .operation) :
    ∃ op, n = .operation op := by
  cases n with
  | operation op => exact ⟨op, rfl⟩
  | node | table | logicAnd | logicOr => simp [Node.type] at hn

/-- Only operations have an index. -/
theorem Node.index_of_type_ne {n : Node Key} (hn : n.type ≠ .operation) : n.index = none := by
  cases n with
  | operation op => exact absurd rfl hn
  | node | table | logicAnd | logicOr => rfl

/-- The executor finds these keys when it walks through the index. -/
theorem mem_indexKeys (heap : Address → BasicIndex Ikey Key) {n : Node Key} {a : Address}
    (hn : n.index = some a) (k : Key) : k ∈ indexKeys heap n ↔ k ∈ (heap a).primaryKeys := by
  rw [BasicIndex.mem_primaryKeys]
  constructor
  · rintro ⟨a', ha', ikey, hmem⟩
    obtain rfl : a = a' := Option.some.inj (hn.symm.trans ha')
    exact ⟨(ikey, k), hmem, rfl⟩
  · rintro ⟨⟨ikey, k'⟩, hmem, rfl⟩
    exact ⟨a, hn, ikey, hmem⟩

/-- Without an index there are no keys. -/
theorem indexKeys_of_type_ne (heap : Address → BasicIndex Ikey Key) {n : Node Key}
    (hn : n.type ≠ .operation) : indexKeys heap n = ∅ := by
  simp [indexKeys, Node.index_of_type_ne hn]

/-- In a well-formed forest there are only logic nodes above other nodes. -/
theorem WellFormed.source {nodes : ℕ → Node Key} {u : ℕ} {f : Forest ℕ} (h : WellFormed nodes f)
    {e : ℕ × ℕ} (he : e ∈ f.edges u) :
    e.1 = u ∨ (nodes e.1).type = .logicAnd ∨ (nodes e.1).type = .logicOr := by
  induction f generalizing u with
  | nil => simp [Forest.edges] at he
  | tree v below rest ihb ihr =>
      obtain ⟨hv, hb, hr⟩ := h
      rw [Forest.edges, List.mem_cons, List.mem_append] at he
      rcases he with rfl | he | he
      · exact Or.inl rfl
      · rcases ihb hb he with heq | hlogic
        · -- something is below `v`, so it is no operation
          have hbelow : below ≠ .nil := by
            rintro rfl
            simp [Forest.edges] at he
          rw [heq]
          revert hv
          cases nodes v with
          | operation op => exact fun hv => absurd hv.1 hbelow
          | logicAnd l => exact fun _ => Or.inr (Or.inl rfl)
          | logicOr l => exact fun _ => Or.inr (Or.inr rfl)
          | node | table => exact False.elim
        · exact Or.inr hlogic
      · exact ihr hr he

/-- In a well-formed forest every operation carries an index. -/
theorem WellFormed.index_ne_none {nodes : ℕ → Node Key} {f : Forest ℕ} (h : WellFormed nodes f)
    {v : ℕ} (hv : v ∈ f.vertices) (hop : (nodes v).type = .operation) :
    (nodes v).index ≠ none := by
  induction f with
  | nil => simp [Forest.vertices] at hv
  | tree w below rest ihb ihr =>
      obtain ⟨hw, hb, hr⟩ := h
      rw [Forest.vertices, List.mem_cons, List.mem_append] at hv
      rcases hv with rfl | hv | hv
      · obtain ⟨op, hn⟩ := Node.exists_operation hop
        rw [hn] at hw ⊢
        exact hw.2
      · exact ihb hb hv
      · exact ihr hr hv

end Ir
