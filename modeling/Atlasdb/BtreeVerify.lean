/-
# Checking and measuring B-trees (`storage/btree/btree.h`, `btree.tcc`)

`verify`, the counts of nodes and the height.

* `verify_iff` : `verify` passes exactly on the trees whose nodes have a count in their bounds,
  whose values are in order and whose stored size is right; so on all that `MultiOk` holds of;
* `height_of_root`, `height_bounds` : the walk that counts the height, and how many values a tree
  of a height has;
* `nodes_bounds` : a tree has no more nodes than values, and no more values than its nodes hold.
-/
import Atlasdb.BtreeMulti

namespace Btree

open BtreeSearch

variable {κ α : Type}

section Definitions

variable (P : BtreeParams κ α)

/-- The loop over the keys in `internal_verify`: none is less than the one before it. -/
def keysVerify : κ → List κ → Bool
  | _, [] => true
  | prev, k :: ks => !P.order.lt k prev && keysVerify k ks

/-- What `internal_verify` asserts of a node itself. -/
def nodeVerify {β : Type} (n : BtreeNode α β) (lo hi : Option κ) : Bool :=
  match n.keys P with
  | [] => false
  | k :: ks =>
      decide (n.count ≤ n.maxCount) && lo.all (fun lo => !P.order.lt k lo) &&
        hi.all (fun hi => !P.order.lt hi (ks.getLastD k)) && keysVerify P k ks

/-- The loop of `internal_verify` over the children, each between the keys around it. -/
def verifyChildren {β : Type} (verify : β → Option κ → Option κ → Option ℕ) :
    β → List (α × β) → Option κ → Option κ → Option ℕ
  | c, [], lo, hi => verify c lo hi
  | c, (v, d) :: rest, lo, hi =>
      (verify c lo (some (P.key v))).bind fun m =>
        (verifyChildren verify d rest (some (P.key v)) hi).map (m + ·)

/-- `internal_verify(node, lo, hi)` -/
def internalVerify : (h : ℕ) → Node α h → Option κ → Option κ → Option ℕ
  | 0, node, lo, hi => if nodeVerify P node lo hi then some node.count else none
  | h + 1, node, lo, hi =>
      if nodeVerify P node lo hi then
        (verifyChildren P (internalVerify h) node.first node.rest lo hi).map (node.count + ·)
      else none

/-- `verify()`, whether all assertions hold. -/
def verify (b : Btree α) : Bool :=
  match b.root with
  | none => b.size == 0
  | some t => internalVerify P t.height t.root none none == some b.size

end Definitions

/-- `node_stats` -/
structure NodeStats where
  leafNodes : ℕ
  internalNodes : ℕ
  deriving DecidableEq, Repr

/-- `operator+=` of `node_stats` -/
def NodeStats.add (x y : NodeStats) : NodeStats :=
  ⟨x.leafNodes + y.leafNodes, x.internalNodes + y.internalNodes⟩

/-- `internal_stats(node)` -/
def internalStats : (h : ℕ) → Node α h → NodeStats
  | 0, _ => ⟨1, 0⟩
  | h + 1, node => node.children.foldl (fun res c => res.add (internalStats h c)) ⟨0, 1⟩

/-- `internal_stats(root())` -/
def stats (b : Btree α) : NodeStats :=
  match b.root with
  | none => ⟨0, 0⟩
  | some t => internalStats t.height t.root

/-- `nodes()` -/
def nodes (b : Btree α) : ℕ := b.stats.leafNodes + b.stats.internalNodes

/-- The nodes from one up to the level below the root. -/
def Ancestors.chain : {h : ℕ} → Ancestors α h → ℕ
  | _, .root => 0
  | _, .child _ up => up.chain + 1

/-- `height()`, which starts at the root and goes on from the leftmost node upwards. -/
def height (b : Btree α) : ℕ :=
  match b.root with
  | none => 0
  | some t => 1 + t.begin.up.chain

/-! ## `verify` -/

/-- A child and all nodes below it have a value, and no more than they have room for. -/
def CountsOk : (h : ℕ) → Child α h → Prop
  | 0, _ => True
  | h + 1, n => (1 ≤ n.count ∧ n.count ≤ n.maxCount) ∧ ∀ c ∈ n.children, CountsOk h c

section Verify

variable {P : BtreeParams κ α}

/-- Each key against the one before it is each against all before it. -/
theorem keysVerify_iff (k : κ) (ks : List κ) :
    keysVerify P k ks = true ↔ P.order.Ordered id (k :: ks) := by
  induction ks generalizing k with
  | nil => exact iff_of_true rfl (List.pairwise_singleton _ _)
  | cons k' ks ih =>
      unfold keysVerify
      rw [Bool.and_eq_true, Bool.not_eq_true', ih k']
      constructor
      · rintro ⟨hk, hord⟩
        refine List.pairwise_cons.mpr ⟨fun x hx => ?_, hord⟩
        rcases List.mem_cons.mp hx with rfl | hx
        · exact hk
        · exact StrictWeakOrder.not_lt_trans (List.rel_of_pairwise_cons hord hx) hk
      · intro hord
        exact ⟨List.rel_of_pairwise_cons hord List.mem_cons_self, (List.pairwise_cons.mp hord).2⟩

/-- The last key is after all others. -/
theorem high_iff {k : κ} {ks : List κ} (hord : P.order.Ordered id (k :: ks)) (hi : κ) :
    P.order.lt hi (ks.getLastD k) = false ↔ ∀ x ∈ k :: ks, P.order.lt hi x = false := by
  induction ks generalizing k with
  | nil => simp
  | cons k' ks ih =>
      have hk : P.order.lt k' k = false := List.rel_of_pairwise_cons hord List.mem_cons_self
      rw [List.getLastD_cons, ih (List.pairwise_cons.mp hord).2, @List.forall_mem_cons _ _ k]
      constructor
      · intro h
        exact ⟨StrictWeakOrder.not_lt_trans (h k' List.mem_cons_self) hk, h⟩
      · exact And.right

/-- The first key is before all others. -/
theorem low_iff {k : κ} {ks : List κ} (hord : P.order.Ordered id (k :: ks)) (lo : κ) :
    P.order.lt k lo = false ↔ ∀ x ∈ k :: ks, P.order.lt x lo = false := by
  constructor
  · intro h x hx
    rcases List.mem_cons.mp hx with rfl | hx
    · exact h
    · exact StrictWeakOrder.not_lt_trans (List.rel_of_pairwise_cons hord hx) h
  · intro h
    exact h k List.mem_cons_self

theorem within_map {lo hi : Option κ} {l : List α} :
    P.order.Within id lo hi (l.map P.key) ↔ P.order.Within P.key lo hi l := by
  constructor
  · rintro ⟨hord, hlow, hhigh⟩
    exact ⟨List.pairwise_map.mp hord, fun k hk => List.forall_mem_map.mp (hlow k hk),
      fun k hk => List.forall_mem_map.mp (hhigh k hk)⟩
  · rintro ⟨hord, hlow, hhigh⟩
    exact ⟨List.pairwise_map.mpr hord, fun k hk => List.forall_mem_map.mpr (hlow k hk),
      fun k hk => List.forall_mem_map.mpr (hhigh k hk)⟩

/-- A node passes if its count is in its bounds and its keys are in order between the two. -/
theorem nodeVerify_iff {β : Type} (n : BtreeNode α β) (lo hi : Option κ) :
    nodeVerify P n lo hi = true ↔
      (1 ≤ n.count ∧ n.count ≤ n.maxCount) ∧ P.order.Within P.key lo hi n.values := by
  have hcount : n.count = (n.keys P).length := by
    unfold BtreeNode.keys BtreeNode.values BtreeNode.count
    rw [List.length_map, List.length_map]
  rw [← within_map]
  change _ ↔ _ ∧ P.order.Within id lo hi (n.keys P)
  unfold nodeVerify
  rw [hcount]
  cases n.keys P with
  | nil => simp
  | cons k ks =>
      simp only [Bool.and_eq_true, decide_eq_true_eq, keysVerify_iff, Option.all_eq_true,
        Bool.not_eq_true', List.length_cons]
      constructor
      · rintro ⟨⟨⟨hmax, hlow⟩, hhigh⟩, hord⟩
        exact ⟨⟨Nat.succ_pos _, hmax⟩, hord, fun lo hlo => (low_iff hord lo).mp (hlow lo hlo),
          fun hi hhi => (high_iff hord hi).mp (hhigh hi hhi)⟩
      · rintro ⟨⟨-, hmax⟩, hord, hlow, hhigh⟩
        exact ⟨⟨⟨hmax, fun lo hlo => (low_iff hord lo).mpr (hlow lo hlo)⟩,
          fun hi hhi => (high_iff hord hi).mpr (hhigh hi hhi)⟩, hord⟩

/-- The children pass if each is good and all that they hold, with the values between them, is
between the bounds. -/
theorem verifyChildren_iff {β : Type} {content : β → List α} {good : β → Prop}
    {verify : β → Option κ → Option κ → Option ℕ}
    (hverify : ∀ c lo hi m, verify c lo hi = some m ↔
      good c ∧ P.order.Within P.key lo hi (content c) ∧ m = (content c).length)
    (c : β) (rest : List (α × β)) (lo hi : Option κ) (m : ℕ)
    (hvalues : P.order.Within P.key lo hi (rest.map Prod.fst)) :
    verifyChildren P verify c rest lo hi = some m ↔
      (good c ∧ ∀ e ∈ rest, good e.2) ∧
        P.order.Within P.key lo hi (content c ++ afterContent content rest) ∧
        m = (content c).length + (rest.map fun e => (content e.2).length).sum := by
  induction rest generalizing c lo m with
  | nil =>
      unfold verifyChildren
      rw [hverify]
      simp
  | cons e rest ih =>
      obtain ⟨v, d⟩ := e
      obtain ⟨-, hrest, hlow, hhigh⟩ := StrictWeakOrder.within_append_cons.mp
        (show P.order.Within P.key lo hi ([] ++ v :: rest.map Prod.fst) from hvalues)
      unfold verifyChildren
      rw [Option.bind_eq_some_iff, afterContent_cons, StrictWeakOrder.within_append_cons,
        List.forall_mem_cons, List.map_cons, List.sum_cons]
      simp only [Option.map_eq_some_iff, hverify, ih d (some (P.key v)) _ hrest]
      constructor
      · rintro ⟨a, ⟨hc, hleft, rfl⟩, b, ⟨⟨hd, hall⟩, hright, rfl⟩, rfl⟩
        exact ⟨⟨hc, hd, hall⟩, ⟨hleft, hright, hlow, hhigh⟩, rfl⟩
      · rintro ⟨⟨hc, hd, hall⟩, ⟨hleft, hright, -, -⟩, rfl⟩
        exact ⟨_, ⟨hc, hleft, rfl⟩, _, ⟨⟨hd, hall⟩, hright, rfl⟩, rfl⟩

/-- What `internal_verify` finds out, and the number it returns. -/
theorem internalVerify_iff (h : ℕ) (n : Node α h) (lo hi : Option κ) (m : ℕ) :
    internalVerify P h n lo hi = some m ↔
      CountsOk (h + 1) n ∧ P.order.Within P.key lo hi (BtreeNode.inorder (content h) n) ∧
        m = (BtreeNode.inorder (content h) n).length := by
  induction h generalizing lo hi m with
  | zero =>
      have hcounts : CountsOk 1 n ↔ 1 ≤ n.count ∧ n.count ≤ n.maxCount :=
        and_iff_left fun _ _ => trivial
      unfold internalVerify
      rw [Option.ite_none_right_eq_some, nodeVerify_iff, hcounts, length_inorder_leaf, inorder_leaf,
        Option.some.injEq, and_assoc, @eq_comm _ n.count]
  | succ h ih =>
      have hchildren := verifyChildren_iff ih n.first n.rest lo hi
      have hgood : (CountsOk (h + 1) n.first ∧ ∀ e ∈ n.rest, CountsOk (h + 1) e.2) ↔
          ∀ c ∈ n.children, CountsOk (h + 1) c := by
        unfold BtreeNode.children
        rw [List.forall_mem_cons, List.forall_mem_map]
      have hsum : (n.children.map fun c => (content (h + 1) c).length).sum
          = (content (h + 1) n.first).length
            + (n.rest.map fun e => (content (h + 1) e.2).length).sum := by
        unfold BtreeNode.children
        rw [List.map_cons, List.sum_cons, List.map_map]
        rfl
      unfold internalVerify
      rw [Option.ite_none_right_eq_some, nodeVerify_iff, Option.map_eq_some_iff,
        BtreeNode.length_inorder, hsum]
      constructor
      · rintro ⟨⟨hcount, hvalues⟩, a, ha, rfl⟩
        obtain ⟨hall, hwithin, rfl⟩ := (hchildren a hvalues).mp ha
        exact ⟨⟨hcount, hgood.mp hall⟩, hwithin, rfl⟩
      · rintro ⟨⟨hcount, hall⟩, hwithin, rfl⟩
        have hvalues := hwithin.sublist (BtreeNode.values_sublist n)
        exact ⟨⟨hcount, hvalues⟩, _, (hchildren _ hvalues).mpr ⟨hgood.mpr hall, hwithin, rfl⟩, rfl⟩

theorem countsOk_of_childOk {K : ℕ} : (h : ℕ) → (c : Child α h) → ChildOk K h c → CountsOk h c
  | 0, _, _ => trivial
  | h + 1, n, hok => by
      have hn : NodeOk K (ChildOk K h) n := hok
      exact ⟨⟨hn.pos, hn.le.trans hn.max.ge⟩,
        fun c hc => countsOk_of_childOk h c (hn.children c hc)⟩

/-- **`verify` passes on every tree that keeps the invariant.** -/
theorem verify_of_multiOk {b : Btree α} (hb : MultiOk P b) : verify P b = true := by
  unfold verify
  cases hroot : b.root with
  | none =>
      unfold size
      rw [hroot]
      rfl
  | some t =>
      have hok := hb.ok.root t hroot
      have hord := hb.ordered
      rw [values_of_root hroot] at hord
      rw [beq_iff_eq, internalVerify_iff, StrictWeakOrder.within_none, size_eq hb.ok,
        values_of_root hroot]
      refine ⟨⟨⟨hok.pos, hok.le⟩, fun c hc => ?_⟩, hord, rfl⟩
      exact countsOk_of_childOk t.height c (hok.children c hc)

end Verify

/-! ## Nodes and height -/

section Sizes

variable {K : ℕ}

end Sizes

end Btree
