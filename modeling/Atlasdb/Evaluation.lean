/-
# The result of a query

The executor pass of `engine::execute`, compared with the meaning of the query.  The pass
adds to the keyset of a table the keys of the operations right below it
(`executorPass_spec`), and nothing from deeper in the tree reaches it, as the executor tree
has no entries for `logic_and` and `logic_or` nodes below other nodes.  So the pass finds
the meaning of a query only where it does not depend on these nodes (`Query.evaluates_iff`).
-/
import Atlasdb.Engine

open Ir Engine

variable {Ikey Key : Type}

namespace Engine

variable [LinearOrder Ikey] [LinearOrder Key] (heap : Address → BasicIndex Ikey Key)

/-! ## What the executor pass does to a table -/

/-- A run of the execute visitor over edges whose operations have an index. -/
theorem run_executeVisitor (nodes : Nodes Key) (events : List (Forest.Event ℕ))
    (h : ∀ u v, .examine u v ∈ events → Executes nodes u v → (nodes v).index ≠ none) :
    ∃ nodes', StepRun.run (executeVisitor heap) nodes events = some nodes' ∧
      ∀ r, (nodes r).type = .table → ∀ k, k ∈ (nodes' r).keyset ↔
        k ∈ (nodes r).keyset ∨ ∃ v, .examine r v ∈ events ∧ k ∈ indexKeys heap (nodes v) := by
  induction events generalizing nodes with
  | nil => exact ⟨nodes, rfl, fun r _ k => by simp⟩
  | cons event events ih =>
      have hrest : ∀ u v, .examine u v ∈ events → Executes nodes u v →
          (nodes v).index ≠ none := fun u v hmem => h u v (List.mem_cons_of_mem event hmem)
      cases event with
      | discover w =>
          obtain ⟨nodes', hrun, hkeys⟩ := ih nodes hrest
          refine ⟨nodes', hrun, fun r hr k => ?_⟩
          rw [hkeys r hr k]
          simp
      | examine u w =>
          obtain ⟨nodes₁, hstep, hsame, hkeys₁⟩ :=
            executeVisitor_spec heap (h u w List.mem_cons_self)
          have hindexKeys : ∀ v, indexKeys heap (nodes₁ v) = indexKeys heap (nodes v) := by
            intro v
            unfold indexKeys
            rw [(hsame v).2]
          have hrest₁ : ∀ u v, .examine u v ∈ events → Executes nodes₁ u v →
              (nodes₁ v).index ≠ none := by
            intro u' v' hmem hex
            rw [(hsame v').2]
            unfold Executes at hex
            rw [(hsame u').1, (hsame v').1] at hex
            exact hrest u' v' hmem hex
          obtain ⟨nodes', hrun, hkeys⟩ := ih nodes₁ hrest₁
          refine ⟨nodes', by rw [StepRun.run_cons, hstep, Option.bind_some, hrun],
            fun r hr k => ?_⟩
          rw [hkeys r ((hsame r).1.trans hr) k, hkeys₁ r hr k]
          simp only [List.mem_cons, Forest.Event.examine.injEq, hindexKeys]
          constructor
          · rintro ((hk | ⟨rfl, hk⟩) | ⟨v, hmem, hk⟩)
            · exact Or.inl hk
            · exact Or.inr ⟨w, Or.inl ⟨rfl, rfl⟩, hk⟩
            · exact Or.inr ⟨v, Or.inr hmem, hk⟩
          · rintro (hk | ⟨v, ⟨rfl, rfl⟩ | hmem, hk⟩)
            · exact Or.inl (Or.inl hk)
            · exact Or.inl (Or.inr ⟨rfl, hk⟩)
            · exact Or.inr ⟨v, hmem, hk⟩

/-- **What the executor pass does to a table.**  When all operations carry an index, the pass
goes through, and each table has got the keys of the operations right below it. -/
theorem executorPass_spec (t : NumberedTree) (nodes : Nodes Key)
    (h : ∀ e ∈ t.edges, Executes nodes e.1 e.2 → (nodes e.2).index ≠ none) :
    ∃ nodes', executorPass heap t nodes = some nodes' ∧
      ∀ r, (nodes r).type = .table → ∀ k, k ∈ (nodes' r).keyset ↔
        k ∈ (nodes r).keyset ∨ ∃ v, (r, v) ∈ t.edges ∧ k ∈ indexKeys heap (nodes v) := by
  unfold executorPass
  have hrun := run_executeVisitor heap nodes t.search
    fun u v hmem => h (u, v) (NumberedTree.examine_mem_search.mp hmem)
  simpa only [NumberedTree.examine_mem_search] using hrun

end Engine

/-! ## Queries -/

namespace Ir.Query

/-- The edge from the table to its child is the only one at the table. -/
theorem root_mem_edges (q : Query Key) {v : ℕ} : (q.tree.root, v) ∈ q.tree.edges ↔ v = q.child := by
  have hnodup := q.tree.nodup_vertices
  rw [NumberedTree.vertices, q.one_child] at hnodup
  obtain ⟨-, -, hroot, -⟩ := Forest.nodup_tree hnodup
  rw [NumberedTree.edges, q.one_child, Forest.edges, Forest.edges, List.append_nil,
    List.mem_cons, Prod.mk.injEq]
  constructor
  · rintro (⟨-, rfl⟩ | hmem)
    · rfl
    · exact absurd (Forest.fst_mem_vertices hmem) hroot
  · rintro rfl
    exact Or.inl ⟨rfl, rfl⟩

/-- In a query every operation that the executor is applied to carries an index. -/
theorem index_ne_none (q : Query Key) {e : ℕ × ℕ} (he : e ∈ q.tree.edges)
    (hex : Executes q.nodes e.1 e.2) : (q.nodes e.2).index ≠ none :=
  q.wellFormed.index_ne_none (Forest.snd_mem_vertices he)
    (Processor.eq_operation_of_ap2 (Processor.attacherTree_of_executorTree hex))

variable [LinearOrder Ikey] [LinearOrder Key] (heap : Address → BasicIndex Ikey Key)

/-- The pass goes through and leaves in the table the keys in the index of its child, if that
is an operation. -/
theorem executorPass_keyset (q : Query Key) :
    ∃ nodes', executorPass heap q.tree q.nodes = some nodes' ∧
      ((nodes' q.tree.root).keyset : Set Key) = indexKeys heap (q.nodes q.child) := by
  obtain ⟨nodes', hpass, hkeys⟩ :=
    executorPass_spec heap q.tree q.nodes fun e he => q.index_ne_none he
  refine ⟨nodes', hpass, ?_⟩
  ext k
  rw [Finset.mem_coe, hkeys _ q.root_table k, q.root_keyset]
  simp [root_mem_edges]

/-- The executor pass leaves in the table exactly what the query means. -/
def Evaluates (q : Query Key) : Prop :=
  ∃ nodes', executorPass heap q.tree q.nodes = some nodes' ∧
    ((nodes' q.tree.root).keyset : Set Key) = q.meaning heap

/-- **When the executor pass evaluates the query.**  If and only if the table stands right
above an operation, or the query means the empty set. -/
theorem evaluates_iff (q : Query Key) :
    q.Evaluates heap ↔ (q.nodes q.child).type = .operation ∨ q.meaning heap = ∅ := by
  obtain ⟨nodes', hpass, hkeys⟩ := q.executorPass_keyset heap
  have heq : q.Evaluates heap ↔ indexKeys heap (q.nodes q.child) = q.meaning heap := by
    unfold Evaluates
    rw [hpass, ← hkeys]
    simp
  rw [heq]
  by_cases hop : (q.nodes q.child).type = .operation
  · refine iff_of_true ?_ (Or.inl hop)
    obtain ⟨op, hn⟩ := Node.exists_operation hop
    unfold Query.meaning
    rw [hn, Ir.meaning]
  · rw [indexKeys_of_type_ne heap hop, or_iff_right hop, eq_comm]

/-- A table above a `logic_or` above an operation with the index at address 0. -/
def tableOverOr : Query ℕ where
  tree := { root := 0, children := .tree 1 (.tree 2 .nil .nil) .nil, numbered := by decide }
  nodes
    | 0 => .table {}
    | 1 => .logicOr {}
    | _ => .operation { index := some 0 }
  child := 1
  below := .tree 2 .nil .nil
  one_child := rfl
  root_table := rfl
  root_keyset := rfl
  wellFormed := ⟨rfl, ⟨⟨rfl, by decide⟩, trivial, trivial⟩, trivial⟩

/-- An index with the primary key 7. -/
def oneEntry : BasicIndex ℕ ℕ where
  container := [(1, 7)]
  ordered := by decide

/-- The key 7 does not reach the table of `tableOverOr`. -/
theorem not_evaluates_tableOverOr :
    ¬ ∀ (heap : Address → BasicIndex ℕ ℕ) (q : Query ℕ), q.Evaluates heap := by
  intro hall
  obtain ⟨nodes', hpass, heq⟩ := hall (fun _ => oneEntry) tableOverOr
  obtain ⟨nodes'', hpass', hkeys⟩ := tableOverOr.executorPass_keyset fun _ => oneEntry
  obtain rfl : nodes' = nodes'' := Option.some.inj (hpass.symm.trans hpass')
  have hin : 7 ∈ tableOverOr.meaning fun _ => oneEntry := by
    exact ⟨_, List.mem_singleton_self _, 0, rfl, 1, List.mem_singleton_self _⟩
  rw [← heq, hkeys, indexKeys_of_type_ne _ (by decide)] at hin
  exact hin

end Ir.Query
