/-
# Running a query (`atlasdb/query/engine.h`)

`engine::execute` sends a depth-first search over the tree of a query, with three visitors
in one list: each hands the nodes it is shown to one of the processors, as the processor
trees say.  The main results say for which trees the passes do what they are there for:

* `bindsOperations_iff` : the initialise and the attach pass bind the operations to the
  indexes they name only in trees without operations, since no node is handed to the
  initializer;
* `attachPass_query_iff` : whatever names the attacher is given, it puts the storehouse itself
  into every operation of a query, so that two different names are never kept apart;
* `attachedInTime_iff` : in the combined traversal an operation is attached before it is
  executed only if it is numbered before all its ancestors, since the edge to a vertex is
  examined before the vertex is discovered.
-/
import Atlasdb.Processor
import Atlasdb.StepRun

open Ir Processor
open Forest (Event)

namespace Engine

variable {Ikey Key : Type}

/-- The objects at the vertices of an `ir_tree`. -/
abbrev Nodes (Key : Type) := ℕ → Node Key

/-- The parent class that `tree_node_initializer` and `tree_node_discover` look a vertex up
under, given the classes of all vertices.  The two are not part of the repository; what the
engine relies on is that for the target of a tree edge this is the class of the source. -/
structure ParentLookup where
  parentType : NumberedTree → (ℕ → NodeType) → ℕ → NodeType
  parentType_snd : ∀ t types, ∀ e ∈ t.edges, parentType t types e.2 = types e.1

/-- The lookup along the edges; above the root it finds a plain `node`. -/
def ParentLookup.alongEdges : ParentLookup where
  parentType := fun t types v => (t.parent? v).elim .node types
  parentType_snd := by
    intro t types e he
    rw [NumberedTree.parent?_snd he, Option.elim_some]

variable (lookup : ParentLookup)

/-- The parent class of a vertex in an `ir_tree`. -/
def parentType (t : NumberedTree) (nodes : Nodes Key) (v : ℕ) : NodeType :=
  lookup.parentType t (fun w => (nodes w).type) v

/-! ## The three visitors -/

/-- `tree_node_initializer<node, initializer_tree>`, at `initialize_vertex`. -/
def initializeVisitor (t : NumberedTree) (nodes : Nodes Key) (p : IrInitializer) (v : ℕ) :
    IrInitializer :=
  match initializerTree (parentType lookup t nodes v) (nodes v).type with
  | some overload => p.call overload (nodes v)
  | none => p

/-- `tree_node_discover<node, attacher_tree>`, at `discover_vertex`. -/
def attachVisitor (t : NumberedTree) (p : StorageAttacher) (nodes : Nodes Key) : Event ℕ → Nodes Key
  | .discover v =>
      match attacherTree (parentType lookup t nodes v) (nodes v).type with
      | some overload => Function.update nodes v (p.call overload (nodes v))
      | none => nodes
  | .examine _ _ => nodes

section Executor

variable [LinearOrder Ikey] [LinearOrder Key] (heap : Address → BasicIndex Ikey Key)

/-- `tree_edge_examiner<node, executor_tree>`, at `examine_edge`. -/
def executeVisitor (nodes : Nodes Key) : Event ℕ → Option (Nodes Key)
  | .discover _ => some nodes
  | .examine u v =>
      match executorTree (nodes u).type (nodes v).type with
      | some overload =>
          (QueryExecutor.call heap overload (nodes v) (nodes u)).map (Function.update nodes u)
      | none => some nodes

/-- The attach and the execute visitor, in the order of the list. -/
def visitors (t : NumberedTree) (p : StorageAttacher) (nodes : Nodes Key) (event : Event ℕ) :
    Option (Nodes Key) :=
  executeVisitor heap (attachVisitor lookup t p nodes event) event

/-! ## The passes -/

/-- The search with the three visitors combined in one list; `none` is the dereference of a
null index.  The initialise visitor acts before the search, on all vertices, and does not
change them. -/
def execute (t : NumberedTree) (p : StorageAttacher) (nodes : Nodes Key) :
    Option (Nodes Key) :=
  StepRun.run (visitors lookup heap t p) nodes t.search

/-- The search with the execute visitor. -/
def executorPass (t : NumberedTree) (nodes : Nodes Key) : Option (Nodes Key) :=
  StepRun.run (executeVisitor heap) nodes t.search

end Executor

/-- The initialise visitor, at all vertices. -/
def initializePass (t : NumberedTree) (nodes : Nodes Key) : IrInitializer :=
  (List.range t.vertices.length).foldl (initializeVisitor lookup t nodes) {}

/-- The search with the attach visitor. -/
def attachPass (t : NumberedTree) (p : StorageAttacher) (nodes : Nodes Key) : Nodes Key :=
  t.search.foldl (attachVisitor lookup t p) nodes

/-! ## What a visitor leaves as it is -/

/-- The parent of a vertex has the class of the source of the edge to it. -/
theorem parentType_snd {t : NumberedTree} (nodes : Nodes Key) {e : ℕ × ℕ} (he : e ∈ t.edges) :
    parentType lookup t nodes e.2 = (nodes e.1).type :=
  lookup.parentType_snd t _ e he

/-- The processors do not change the class of a node. -/
@[simp] theorem type_call_attacher (p : StorageAttacher) (o : StorageAttacher.Overload)
    (n : Node Key) : (p.call o n).type = n.type := by
  cases o <;> cases n <;> rfl

/-- The attach visitor does not change the class of a node. -/
theorem type_attachVisitor (t : NumberedTree) (p : StorageAttacher) (nodes : Nodes Key)
    (event : Event ℕ) (w : ℕ) : (attachVisitor lookup t p nodes event w).type = (nodes w).type := by
  cases event with
  | examine u v => rfl
  | discover v =>
      rw [attachVisitor]
      cases attacherTree (parentType lookup t nodes v) (nodes v).type with
      | none => rfl
      | some overload =>
          by_cases h : w = v
          · subst h
            simp
          · simp [h]

/-- The parents keep their classes when the nodes do. -/
theorem parentType_congr (t : NumberedTree) {nodes nodes' : Nodes Key}
    (h : ∀ w, (nodes' w).type = (nodes w).type) (v : ℕ) :
    parentType lookup t nodes' v = parentType lookup t nodes v := by
  unfold parentType
  have htypes : (fun w => (nodes' w).type) = fun w => (nodes w).type := by
    funext w
    exact h w
  rw [htypes]

/-! ## Binding the operations -/

/-- No node is handed to the initializer. -/
theorem initializePass_eq (t : NumberedTree) (nodes : Nodes Key) :
    initializePass lookup t nodes = {} := by
  unfold initializePass
  induction List.range t.vertices.length with
  | nil => rfl
  | cons v vs ih => rw [List.foldl_cons, initializeVisitor, initializerTree_eq_none, ih]

/-- The attacher built from the names that the initialise pass has recorded. -/
def attacher (newStorehouse : String → List String → BasicStorehouse) (t : NumberedTree)
    (nodes : Nodes Key) : StorageAttacher :=
  let p := initializePass lookup t nodes
  .make newStorehouse p.tableName p.indexes

/-- The names of the tables and of the operations are recorded. -/
def RecordsNames (t : NumberedTree) (nodes : Nodes Key) : Prop :=
  ∀ v ∈ t.vertices,
    (∀ tb, nodes v = .table tb → (initializePass lookup t nodes).tableName = tb.name) ∧
      ∀ op, nodes v = .operation op → op.name ∈ (initializePass lookup t nodes).indexes

/-- After the attach pass, each operation has the index of the storehouse with its name. -/
def BindsIndexes (p : StorageAttacher) (t : NumberedTree) (nodes : Nodes Key) : Prop :=
  ∀ v ∈ t.vertices, ∀ op, nodes v = .operation op →
    (attachPass lookup t p nodes v).index = p.storehouse.at? op.name

/-- After the attach pass, operations with different names have different indexes. -/
def SeparatesNames (p : StorageAttacher) (t : NumberedTree) (nodes : Nodes Key) : Prop :=
  ∀ v ∈ t.vertices, ∀ w ∈ t.vertices, ∀ op op', nodes v = .operation op →
    nodes w = .operation op' → op.name ≠ op'.name →
    (attachPass lookup t p nodes v).index ≠ (attachPass lookup t p nodes w).index

/-- The two passes bind each operation to the index that it names. -/
structure BindsOperations (newStorehouse : String → List String → BasicStorehouse)
    (t : NumberedTree) (nodes : Nodes Key) : Prop where
  records : RecordsNames lookup t nodes
  binds : BindsIndexes lookup (attacher lookup newStorehouse t nodes) t nodes
  separates : SeparatesNames lookup (attacher lookup newStorehouse t nodes) t nodes

/-- **When the passes bind the operations.**  For every tree and every constructor of
storehouses: if and only if its tables have the empty name and there is no operation. -/
theorem bindsOperations_iff (newStorehouse : String → List String → BasicStorehouse)
    (t : NumberedTree) (nodes : Nodes Key) :
    BindsOperations lookup newStorehouse t nodes ↔
      ∀ v ∈ t.vertices, (∀ tb, nodes v = .table tb → tb.name = "") ∧
        (nodes v).type ≠ .operation := by
  constructor
  · rintro ⟨hrecords, -, -⟩ v hv
    obtain ⟨htable, hop⟩ := hrecords v hv
    rw [initializePass_eq] at htable hop
    refine ⟨fun tb htb => (htable tb htb).symm, fun htype => ?_⟩
    obtain ⟨op, hn⟩ := Node.exists_operation htype
    exact absurd (hop op hn) List.not_mem_nil
  · intro h
    have hnone : ∀ v ∈ t.vertices, ∀ op, nodes v ≠ .operation op := by
      intro v hv op hop
      exact (h v hv).2 (by rw [hop]; rfl)
    refine ⟨fun v hv => ⟨fun tb htb => ?_, ?_⟩, ?_, ?_⟩
    · rw [initializePass_eq]
      exact ((h v hv).1 tb htb).symm
    · exact fun op hop => absurd hop (hnone v hv op)
    · exact fun v hv op hop => absurd hop (hnone v hv op)
    · exact fun v hv _ _ op _ hop => absurd hop (hnone v hv op)

/-- A table with one operation below it, the table numbered first. -/
def tableOverOperation : NumberedTree where
  root := 0
  children := .tree 1 .nil .nil
  numbered := by decide

/-- The nodes of `tableOverOperation`: a table and an operation that names an index. -/
def tableAndOperation : Nodes ℕ
  | 0 => .table { name := "users" }
  | 1 => .operation { name := "age" }
  | _ => .node

/-- Neither name of `tableAndOperation` is recorded. -/
theorem not_bindsOperations_single :
    ¬ ∀ (newStorehouse : String → List String → BasicStorehouse) (t : NumberedTree)
      (nodes : Nodes ℕ), BindsOperations .alongEdges newStorehouse t nodes := by
  intro hall
  have hbind := hall (fun table _ => ⟨0, table, []⟩) tableOverOperation tableAndOperation
  have hage := (hbind.records 1 (by decide)).2 _ rfl
  rw [initializePass_eq] at hage
  exact absurd hage List.not_mem_nil

/-! ## The attach pass -/

/-- A vertex is an operation that the attach visitor handles. -/
def Attaches (t : NumberedTree) (nodes : Nodes Key) (v : ℕ) : Prop :=
  attacherTree (parentType lookup t nodes v) (nodes v).type = some ap2

/-- What the attach visitor handles is an operation. -/
theorem Attaches.type_eq {lookup : ParentLookup} {t : NumberedTree} {nodes : Nodes Key} {v : ℕ}
    (h : Attaches lookup t nodes v) : (nodes v).type = .operation := eq_operation_of_ap2 h

instance (t : NumberedTree) (nodes : Nodes Key) (v : ℕ) : Decidable (Attaches lookup t nodes v) :=
  inferInstanceAs (Decidable (_ = _))

/-- What is handled depends on the classes of the nodes only. -/
theorem attaches_congr (t : NumberedTree) {nodes nodes' : Nodes Key}
    (h : ∀ w, (nodes' w).type = (nodes w).type) (v : ℕ) :
    Attaches lookup t nodes' v ↔ Attaches lookup t nodes v := by
  unfold Attaches
  rw [parentType_congr lookup t h, h v]

/-- The attach visitor only touches the node that it is shown. -/
theorem attachVisitor_of_ne (t : NumberedTree) (p : StorageAttacher) (nodes : Nodes Key)
    {event : Event ℕ} {w : ℕ} (h : event ≠ .discover w) :
    attachVisitor lookup t p nodes event w = nodes w := by
  cases event with
  | examine u v => rfl
  | discover v =>
      have hwv : w ≠ v := fun heq => h (heq ▸ rfl)
      rw [attachVisitor]
      cases attacherTree (parentType lookup t nodes v) (nodes v).type with
      | none => rfl
      | some overload => exact Function.update_of_ne hwv _ _

/-- An operation that is handled gets the storehouse for its index, and other indexes stay. -/
theorem index_attachVisitor (t : NumberedTree) (p : StorageAttacher) (nodes : Nodes Key)
    (event : Event ℕ) (w : ℕ) : (attachVisitor lookup t p nodes event w).index =
      if event = .discover w ∧ Attaches lookup t nodes w then some p.storehouse.self
      else (nodes w).index := by
  -- only the index of an operation can change, and only when the operation is discovered
  by_cases htype : (nodes w).type = .operation
  · by_cases hevent : event = .discover w
    · subst hevent
      rcases attacherTree_operation (parentType lookup t nodes w) with h | h
      · have hattach : Attaches lookup t nodes w := by
          unfold Attaches
          rw [htype, h]
        rw [if_pos ⟨rfl, hattach⟩, attachVisitor, htype, h]
        obtain ⟨op, hn⟩ := Node.exists_operation htype
        show (Function.update nodes w (p.call ap2 (nodes w)) w).index = _
        rw [Function.update_self, hn]
        rfl
      · have hnot : ¬ Attaches lookup t nodes w := by
          unfold Attaches
          rw [htype, h]
          simp
        rw [if_neg fun h' => hnot h'.2, attachVisitor, htype, h]
    · rw [attachVisitor_of_ne lookup t p nodes hevent, if_neg fun h => hevent h.1]
  · have htype' : (attachVisitor lookup t p nodes event w).type ≠ .operation := by
      rwa [type_attachVisitor]
    rw [Node.index_of_type_ne htype, Node.index_of_type_ne htype',
      if_neg fun h => htype h.2.type_eq]

/-- Over several events, an operation that is discovered and handled gets the storehouse. -/
theorem index_foldl_attachVisitor (t : NumberedTree) (p : StorageAttacher) (v : ℕ)
    (events : List (Event ℕ)) (nodes : Nodes Key) :
    (events.foldl (attachVisitor lookup t p) nodes v).index =
      if .discover v ∈ events ∧ Attaches lookup t nodes v then some p.storehouse.self
      else (nodes v).index := by
  induction events generalizing nodes with
  | nil => simp
  | cons event events ih =>
      have hattach := attaches_congr lookup t (type_attachVisitor lookup t p nodes event) v
      simp only [List.foldl_cons, ih, hattach, index_attachVisitor, List.mem_cons]
      by_cases hlater : .discover v ∈ events ∧ Attaches lookup t nodes v
      · rw [if_pos hlater, if_pos ⟨Or.inr hlater.1, hlater.2⟩]
      · rw [if_neg hlater]
        refine if_congr ?_ rfl rfl
        rw [eq_comm]
        tauto

/-- **What the attach pass does.**  Every operation that is handled has the storehouse itself
for its index afterwards, whatever its name; the others keep the index that they had. -/
theorem index_attachPass (t : NumberedTree) (p : StorageAttacher) (nodes : Nodes Key) {v : ℕ}
    (hv : v ∈ t.vertices) : (attachPass lookup t p nodes v).index =
      if Attaches lookup t nodes v then some p.storehouse.self else (nodes v).index := by
  unfold attachPass
  rw [index_foldl_attachVisitor]
  exact if_congr (and_iff_right (NumberedTree.discover_mem_search hv)) rfl rfl

section GivenNames

variable {t : NumberedTree} {nodes : Nodes Key}
  (hattach : ∀ v ∈ t.vertices, (nodes v).type = .operation → Attaches lookup t nodes v)
include hattach

/-- Where all operations are handled, the attach pass leaves the storehouse in each. -/
theorem index_attachPass_operation (p : StorageAttacher) {v : ℕ} (hv : v ∈ t.vertices)
    {op : Operation} (hop : nodes v = .operation op) :
    (attachPass lookup t p nodes v).index = some p.storehouse.self := by
  have htype : (nodes v).type = .operation := by rw [hop]; rfl
  rw [index_attachPass lookup t p nodes hv, if_pos (hattach v hv htype)]

/-- With an attacher built from any names, the attach pass binds the operations if and only if
the storehouse is its own index under every name in the tree. -/
theorem bindsIndexes_iff (p : StorageAttacher) :
    BindsIndexes lookup p t nodes ↔ ∀ v ∈ t.vertices, ∀ op, nodes v = .operation op →
      p.storehouse.at? op.name = some p.storehouse.self := by
  unfold BindsIndexes
  refine forall₂_congr fun v hv => forall₂_congr fun op hop => ?_
  rw [index_attachPass_operation lookup hattach p hv hop, eq_comm]

/-- It separates the names if and only if there is only one. -/
theorem separatesNames_iff (p : StorageAttacher) :
    SeparatesNames lookup p t nodes ↔ ∀ v ∈ t.vertices, ∀ w ∈ t.vertices, ∀ op op',
      nodes v = .operation op → nodes w = .operation op' → op.name = op'.name := by
  unfold SeparatesNames
  refine forall₂_congr fun v hv => forall₂_congr fun w hw => forall₂_congr fun op op' =>
    forall₂_congr fun hop hop' => ?_
  rw [index_attachPass_operation lookup hattach p hv hop,
    index_attachPass_operation lookup hattach p hw hop']
  simp

end GivenNames

/-- In a query all operations are handled, as they hang below the table or a logic node. -/
theorem attaches_query (q : Query Key) : ∀ v ∈ q.tree.vertices,
    (q.nodes v).type = .operation → Attaches lookup q.tree q.nodes v := by
  intro v hv htype
  have hroot : v ≠ q.tree.root := by
    rintro rfl
    rw [q.root_table] at htype
    exact absurd htype (by decide)
  obtain ⟨e, he, rfl⟩ := NumberedTree.exists_edge hv hroot
  unfold Attaches
  rw [parentType_snd lookup q.nodes he, htype]
  rcases q.wellFormed.source he with hsource | hsource | hsource
  · rw [hsource, q.root_table]
    rfl
  · rw [hsource]
    rfl
  · rw [hsource]
    rfl

/-- **What the attach pass does to a query.**  For every query and every attacher: the operations
are bound if and only if the storehouse is its own index under all their names, and the names
are kept apart if and only if they are all the same. -/
theorem attachPass_query_iff (q : Query Key) (p : StorageAttacher) :
    (BindsIndexes lookup p q.tree q.nodes ↔ ∀ v ∈ q.tree.vertices, ∀ op,
        q.nodes v = .operation op → p.storehouse.at? op.name = some p.storehouse.self) ∧
      (SeparatesNames lookup p q.tree q.nodes ↔ ∀ v ∈ q.tree.vertices, ∀ w ∈ q.tree.vertices,
        ∀ op op', q.nodes v = .operation op → q.nodes w = .operation op' → op.name = op'.name) :=
  ⟨bindsIndexes_iff lookup (attaches_query lookup q) p,
    separatesNames_iff lookup (attaches_query lookup q) p⟩

/-! ## Attaching before executing -/

/-- The execute visitor applies the executor to an edge. -/
def Executes (nodes : Nodes Key) (u v : ℕ) : Prop :=
  (executorTree (nodes u).type (nodes v).type).isSome

/-- Whenever the search comes to an edge that the executor is applied to, the attach visitor
has been shown the operation and has handled it. -/
def AttachedFirst (t : NumberedTree) (nodes : Nodes Key) : Prop :=
  ∀ pre u v post, t.search = pre ++ .examine u v :: post → Executes nodes u v →
    .discover v ∈ pre ∧ Attaches lookup t nodes v

/-- Operations that the executor is applied to are numbered before all their ancestors. -/
def OperationsFirst (t : NumberedTree) (nodes : Nodes Key) : Prop :=
  ∀ e ∈ t.edges, Executes nodes e.1 e.2 → t.NumberedBefore e.2 e.1

/-- Along an edge where the executor is applied, the attacher handles the operation. -/
theorem attaches_of_executes {t : NumberedTree} {nodes : Nodes Key} {e : ℕ × ℕ}
    (he : e ∈ t.edges) (hex : Executes nodes e.1 e.2) : Attaches lookup t nodes e.2 := by
  unfold Attaches
  rw [parentType_snd lookup nodes he]
  exact attacherTree_of_executorTree hex

/-- Operations are attached first exactly when they are numbered first. -/
theorem attachedFirst_iff (t : NumberedTree) (nodes : Nodes Key) :
    AttachedFirst lookup t nodes ↔ OperationsFirst t nodes := by
  have hall := t.everyExamine_search_iff
    fun u v seen => Executes nodes u v → seen ∧ Attaches lookup t nodes v
  rw [Forest.everyExamine_iff] at hall
  simp only [Forest.mem_foldl_observe, Finset.notMem_empty, false_or] at hall
  unfold AttachedFirst
  rw [OperationsFirst, hall]
  refine forall₂_congr fun e he => imp_congr_right fun hex => ?_
  exact and_iff_left (attaches_of_executes lookup he hex)

section Progress

/-- Where the search is after some events, compared with the nodes that it started from: the
classes are the same, and an index is set if its operation has been discovered and is handled
by the attach visitor, or if it was set before. -/
structure Progress (t : NumberedTree) (nodes : Nodes Key) (seen : Finset ℕ)
    (nodes' : Nodes Key) : Prop where
  type_eq : ∀ w, (nodes' w).type = (nodes w).type
  index_iff : ∀ w, (nodes' w).index ≠ none ↔
    (w ∈ seen ∧ Attaches lookup t nodes w) ∨ (nodes w).index ≠ none

variable {lookup : ParentLookup}
variable {t : NumberedTree} {nodes nodes' : Nodes Key} {seen : Finset ℕ}

/-- Progress by the attach visitor. -/
theorem Progress.attachVisitor (h : Progress lookup t nodes seen nodes') (p : StorageAttacher)
    (event : Event ℕ) :
    Progress lookup t nodes (Forest.observe seen event)
      (attachVisitor lookup t p nodes' event) := by
  refine ⟨fun w => (type_attachVisitor lookup t p nodes' event w).trans (h.type_eq w), fun w => ?_⟩
  have hattach : Attaches lookup t nodes w ↔ Attaches lookup t nodes' w :=
    (attaches_congr lookup t h.type_eq w).symm
  have hseen : w ∈ Forest.observe seen event ↔ event = .discover w ∨ w ∈ seen := by
    cases event with
    | discover v => simp [Forest.observe, eq_comm]
    | examine u v => simp [Forest.observe]
  rw [index_attachVisitor, hattach, hseen]
  by_cases hnow : event = .discover w ∧ Attaches lookup t nodes' w
  · rw [if_pos hnow]
    simp [hnow]
  · rw [if_neg hnow, h.index_iff, hattach]
    tauto

/-- Progress by the execute visitor, as it does not touch classes and indexes. -/
theorem Progress.of_same (h : Progress lookup t nodes seen nodes') {nodes'' : Nodes Key}
    (hsame : ∀ w, (nodes'' w).type = (nodes' w).type ∧ (nodes'' w).index = (nodes' w).index) :
    Progress lookup t nodes seen nodes'' :=
  ⟨fun w => (hsame w).1.trans (h.type_eq w), fun w => by rw [(hsame w).2, h.index_iff]⟩

end Progress

section Run

variable [LinearOrder Ikey] [LinearOrder Key] (heap : Address → BasicIndex Ikey Key)

/-- The execute visitor fails on an operation with a null index. -/
theorem executeVisitor_eq_none {nodes : Nodes Key} {u v : ℕ} (hex : Executes nodes u v)
    (hnull : (nodes v).index = none) : executeVisitor heap nodes (.examine u v) = none := by
  obtain ⟨o, ho⟩ := Option.isSome_iff_exists.mp hex
  rw [executeVisitor, ho]
  simp [call_eq_none heap ho hnull]

/-- Otherwise it changes no class and no index, and the keyset of a table only by adding the
keys of its operations. -/
theorem executeVisitor_spec {nodes : Nodes Key} {u v : ℕ}
    (h : Executes nodes u v → (nodes v).index ≠ none) :
    ∃ nodes', executeVisitor heap nodes (.examine u v) = some nodes' ∧
      (∀ w, (nodes' w).type = (nodes w).type ∧ (nodes' w).index = (nodes w).index) ∧
      ∀ r, (nodes r).type = .table → ∀ k, k ∈ (nodes' r).keyset ↔
        k ∈ (nodes r).keyset ∨ (u = r ∧ k ∈ indexKeys heap (nodes v)) := by
  cases hentry : executorTree (nodes u).type (nodes v).type with
  | none =>
      refine ⟨nodes, by rw [executeVisitor, hentry], fun w => ⟨rfl, rfl⟩, fun r hr k => ?_⟩
      -- below a table, only operations have an index, and they are not left out
      refine (or_iff_left ?_).symm
      rintro ⟨rfl, hk⟩
      rw [hr] at hentry
      have hop : (nodes v).type ≠ .operation := by
        intro hop
        rw [hop] at hentry
        simp [executorTree] at hentry
      rw [indexKeys_of_type_ne heap hop] at hk
      exact hk
  | some o =>
      have hindex : (nodes v).index ≠ none := h (by rw [Executes, hentry]; rfl)
      obtain ⟨n, hn, htype, hidx, hkeys⟩ := call_spec heap hentry hindex
      refine ⟨Function.update nodes u n, by rw [executeVisitor, hentry]; simp [hn],
        fun w => ?_, fun r hr k => ?_⟩
      · by_cases hw : w = u
        · subst hw
          rw [Function.update_self]
          exact ⟨htype, hidx⟩
        · rw [Function.update_of_ne hw]
          exact ⟨rfl, rfl⟩
      · by_cases hw : u = r
        · subst hw
          rw [Function.update_self, hkeys hr k]
          tauto
        · rw [Function.update_of_ne (Ne.symm hw)]
          tauto

variable {t : NumberedTree} {nodes nodes' : Nodes Key} {seen : Finset ℕ}

/-- A run of the combined visitors goes through exactly when each operation that the executor
is applied to has been attached by then, or had an index from the start. -/
theorem run_visitors_ne_none_iff (h : Progress lookup t nodes seen nodes') (p : StorageAttacher)
    (events : List (Event ℕ)) :
    StepRun.run (visitors lookup heap t p) nodes' events ≠ none ↔
      Forest.EveryExamine (fun u v discovered => Executes nodes u v →
        (discovered ∧ Attaches lookup t nodes v) ∨ (nodes v).index ≠ none) seen events := by
  induction events generalizing seen nodes' with
  | nil => simp [Forest.EveryExamine]
  | cons event events ih =>
      have hattached := h.attachVisitor p event
      cases event with
      | discover v =>
          rw [StepRun.run_cons, visitors, executeVisitor, Option.bind_some]
          exact ih hattached
      | examine u v =>
          have hex : Executes nodes' u v ↔ Executes nodes u v := by
            unfold Executes
            rw [h.type_eq, h.type_eq]
          rw [StepRun.run_cons, visitors, Engine.attachVisitor, Forest.EveryExamine,
            ← h.index_iff v, ← hex]
          by_cases hok : Executes nodes' u v → (nodes' v).index ≠ none
          · obtain ⟨nodes'', hrun, hsame, -⟩ := executeVisitor_spec heap hok
            rw [hrun, Option.bind_some, ih (h.of_same hsame)]
            exact (and_iff_right hok).symm
          · obtain ⟨hexec, hnull⟩ := Classical.not_imp.mp hok
            rw [executeVisitor_eq_none heap hexec (not_not.mp hnull)]
            simp [hok]

/-- The combined traversal goes through exactly when every operation that the executor is
applied to is numbered first, or had an index from the start. -/
theorem execute_ne_none_iff (t : NumberedTree) (p : StorageAttacher) (nodes : Nodes Key) :
    execute lookup heap t p nodes ≠ none ↔ ∀ e ∈ t.edges, Executes nodes e.1 e.2 →
      t.NumberedBefore e.2 e.1 ∨ (nodes e.2).index ≠ none := by
  have hstart : Progress lookup t nodes ∅ nodes := ⟨fun _ => rfl, fun w => by simp⟩
  unfold execute
  rw [run_visitors_ne_none_iff lookup heap hstart, t.everyExamine_search_iff]
  refine forall₂_congr fun e he => imp_congr_right fun hex => ?_
  rw [and_iff_left (attaches_of_executes lookup he hex)]

/-- No operation is executed before its index is attached, and no null index is ever
dereferenced. -/
def AttachedInTime (t : NumberedTree) (p : StorageAttacher) (nodes : Nodes Key) : Prop :=
  AttachedFirst lookup t nodes ∧ execute lookup heap t p nodes ≠ none

/-- **When the combined traversal attaches in time.**  For every tree, every numbering of its
vertices and every attacher: if and only if each operation that the executor is applied to
is numbered before all its ancestors. -/
theorem attachedInTime_iff (t : NumberedTree) (p : StorageAttacher) (nodes : Nodes Key) :
    AttachedInTime lookup heap t p nodes ↔ OperationsFirst t nodes := by
  unfold AttachedInTime
  rw [attachedFirst_iff, execute_ne_none_iff]
  refine and_iff_left_of_imp fun hfirst e he hex => ?_
  exact Or.inl (hfirst e he hex)

/-- In `tableOverOperation` the operation is executed before it is attached. -/
theorem not_attachedInTime_single :
    ¬ ∀ (heap : Address → BasicIndex ℕ ℕ) (t : NumberedTree) (p : StorageAttacher)
      (nodes : Nodes ℕ), AttachedInTime .alongEdges heap t p nodes := by
  intro hall
  have hintime := hall (fun _ => ⟨[], List.Pairwise.nil⟩) tableOverOperation ⟨⟨0, "users", []⟩⟩
    tableAndOperation
  have hsearch : tableOverOperation.search = [.discover 0] ++ .examine 0 1 :: [.discover 1] := by
    decide
  have hmem := (hintime.1 _ 0 1 _ hsearch rfl).1
  exact absurd hmem (by decide)

/-- As no operation has an index when the traversal begins, it goes through in the same cases
only. -/
theorem execute_ne_none_iff_operationsFirst (t : NumberedTree) (p : StorageAttacher)
    (nodes : Nodes Key) (hnull : ∀ v, (nodes v).index = none) :
    execute lookup heap t p nodes ≠ none ↔ OperationsFirst t nodes := by
  rw [execute_ne_none_iff]
  simp [OperationsFirst, hnull]

end Run

end Engine
