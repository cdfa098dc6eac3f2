/-
# B-trees with unique keys (`storage/btree/btree.tcc`, `btree_container.h`)

The members of `btree` that `btree_map` and `btree_set` are made of.  An iterator is `none` where
the source has one without a node, which is so in an empty tree.

* `insertUnique_spec` : a value is put at the place of its key if the tree has none under it, and
  else nothing changes and the iterator returned points at the value that is there;
* `insertUniqueHint_eq` : inserting with a hint, wherever it points, leaves the same nodes and
  returns the same iterator as inserting without one;
* `hints_agree` : so no two hints make a difference;
* `eraseUnique_spec`, `findUnique_spec` : erasing and finding, by key;
* `insertUniqueRange_spec` : a range is inserted value by value.
-/
import Atlasdb.BtreeErase
import Atlasdb.KeyedList

namespace Btree

open BtreeSearch

variable {κ α : Type}

section Definitions

variable (P : BtreeParams κ α)

/-- `begin()` -/
def begin (b : Btree α) : Option (Iterator α) := b.root.map Tree.begin

/-- `end()` -/
def end_ (b : Btree α) : Option (Iterator α) := b.root.map Tree.end_

/-- The root that insertions start from: an empty tree gets a leaf with room for one value. -/
def startRoot (b : Btree α) : Tree α := b.root.getD ⟨0, BtreeNode.initLeaf 1⟩

/-- `insert_unique(key, value)`: the tree, the iterator, and whether the value was inserted. -/
def insertUniqueKey (b : Btree α) (k : κ) (v : α) :
    Option (Btree α × Option (Iterator α) × Bool) :=
  let b' : Btree α := ⟨some b.startRoot, b.rootSize⟩
  let res := internalLocate P k b.startRoot
  if res.2 = kExactMatch then some (b', res.1.internalLast, false)
  else
    match if res.2 = 0 then res.1.internalLast.filter (notBefore P k) else none with
    | some last => some (b', some last, false)
    | none => (internalInsert P b' res.1 v).map fun (b'', it) => (b'', some it, true)

/-- `insert_unique(v)` -/
def insertUnique (b : Btree α) (v : α) : Option (Btree α × Option (Iterator α) × Bool) :=
  insertUniqueKey P b (P.key v) v

/-- `compare_keys(k, iter.key())` -/
def keyLess (k : κ) (it : Iterator α) : Bool := it.value?.any fun w => P.order.lt k (P.key w)

/-- `compare_keys(iter.key(), k)` -/
def lessKey (it : Iterator α) (k : κ) : Bool := it.value?.any fun w => P.order.lt (P.key w) k

/-- `insert_unique(position, v)` -/
def insertUniqueHint (b : Btree α) (position : Option (Iterator α)) (v : α) :
    Option (Btree α × Option (Iterator α)) :=
  let plain := (insertUnique P b v).map fun r => (r.1, r.2.1)
  match b.root, position with
  | some t, some it =>
      if it.same t.end_ || keyLess P (P.key v) it then
        if it.same t.begin || (decrement it).any (lessKey P · (P.key v)) then
          (internalInsert P b it v).map fun r => (r.1, some r.2)
        else plain
      else if lessKey P it (P.key v) then
        if (increment it).same t.end_ || keyLess P (P.key v) (increment it) then
          (internalInsert P b (increment it) v).map fun r => (r.1, some r.2)
        else plain
      else some (b, some it)
  | _, _ => plain

/-- `insert_unique(b, e)`: each value in turn, with the end for a hint. -/
def insertUniqueRange (b : Btree α) (vs : List α) : Option (Btree α) :=
  vs.foldlM (fun b v => (insertUniqueHint P b b.end_ v).map Prod.fst) b

/-- `find_unique(key)` -/
def findUnique (b : Btree α) (k : κ) : Option (Iterator α) :=
  b.root.map fun t => internalEnd t (internalFindUnique P k t)

/-- `count_unique(key)` -/
def countUnique (b : Btree α) (k : κ) : ℕ :=
  match b.root.bind (internalFindUnique P k) with
  | some _ => 1
  | none => 0

/-- `erase_unique(key)` -/
def eraseUnique (b : Btree α) (k : κ) : Option (Btree α × ℕ) :=
  match b.root.bind (internalFindUnique P k) with
  | some it => (erase P b it).map fun r => (r.1, 1)
  | none => some (b, 0)

end Definitions

/-! ## What the tree is to keep -/

/-- The invariant of a tree with unique keys. -/
structure UniqueOk (P : BtreeParams κ α) (b : Btree α) : Prop where
  ok : b.Ok P
  ordered : P.order.StrictlyOrdered P.key b.values

/-- The iterators that a caller has into a tree: to a value, or the end. -/
def ValidIn (b : Btree α) (position : Option (Iterator α)) : Prop :=
  position.map Iterator.tree = b.root ∧ ∀ it ∈ position, it.Valid

section Insert

variable {P : BtreeParams κ α} {b : Btree α}

theorem uniqueOk_empty (P : BtreeParams κ α) : UniqueOk P (empty : Btree α) :=
  ⟨ok_empty P, List.Pairwise.nil⟩

/-- The slot in a leaf depends on the place only. -/
theorem leafSlot_congr {K : ℕ} {it it' : Iterator α} (hok : RootOk K it.tree)
    (htree : it.tree = it'.tree) (hp : it.position ≤ it.node.count)
    (hp' : it'.position ≤ it'.node.count) (hrank : it.before.length = it'.before.length) :
    leafSlot it = leafSlot it' := by
  obtain ⟨⟨n, p, up⟩, hs, hclose, hleaf, hb, -⟩ := leafSlot_spec hok hp
  obtain ⟨⟨n', p', up'⟩, hs', hclose', hleaf', hb', -⟩ :=
    @leafSlot_spec _ _ it' (by rw [← htree]; exact hok) hp'
  have heq : (⟨0, n, p, up⟩ : Iterator α) = ⟨0, n', p', up'⟩ := by
    refine leaf_eq_of_rank (by rw [hclose]; exact hok) (hclose.trans (htree.trans hclose'.symm))
      hleaf.position hleaf'.position ?_
    rw [before_slot, before_slot, hb, hb', hrank]
  rw [hs, hs']
  simp only [Iterator.mk.injEq, heq_eq_eq, true_and] at heq
  obtain ⟨rfl, rfl, rfl⟩ := heq
  rfl

/-- Inserting at an iterator of a tree with values. -/
theorem insert_place {it : Iterator α} (hok : b.Ok P) (hroot : b.root = some it.tree)
    (hp : it.position ≤ it.node.count) (v : α) :
    ∃ b' it', internalInsert P b it v = some (b', it') ∧ b'.Ok P ∧ b'.root = some it'.tree ∧
      it'.value? = some v ∧ it'.before = it.before ∧ it'.rest = v :: it.rest := by
  obtain ⟨s, hs, hclose, hleaf, hb, hr⟩ := leafSlot_spec (hok.root _ hroot) hp
  exact internalInsert_spec v hroot hs hclose hleaf hb hr fun t ht => hok.size t ht

/-- Inserting into the leaf that an empty tree starts with. -/
theorem insert_first (P : BtreeParams κ α) (rootSize : ℕ) (v : α) :
    ∃ b' it', internalInsert P ⟨some ⟨0, BtreeNode.initLeaf 1⟩, rootSize⟩
        ⟨0, BtreeNode.initLeaf 1, 0, .root⟩ v = some (b', it') ∧ b'.Ok P ∧
      b'.root = some it'.tree ∧ it'.value? = some v ∧ it'.before = [] ∧ it'.rest = [v] := by
  have hK := P.three_le_kNodeValues
  obtain ⟨b', it', hinsert, hok, hroot, hv, hb, hr⟩ := @internalInsert_spec _ _ P
    ⟨some ⟨0, BtreeNode.initLeaf 1⟩, rootSize⟩ ⟨0, BtreeNode.initLeaf 1, 0, .root⟩
    ⟨BtreeNode.initLeaf 1, 0, .root⟩ v rfl rfl rfl
    ⟨Nat.le_refl 0, Nat.zero_le 1, Nat.le_refl 1, by
      show 1 ≤ P.kNodeValues
      omega, Or.inl rfl, trivial⟩ rfl rfl fun t ht hheight => by
        obtain rfl := Option.some.inj ht
        exact absurd rfl hheight
  exact ⟨b', it', hinsert, hok, hroot, hv, hb, hr⟩

theorem startRoot_of_root {t : Tree α} (hroot : b.root = some t) :
    b.startRoot = t ∧ (⟨some b.startRoot, b.rootSize⟩ : Btree α) = b := by
  obtain ⟨root, rootSize⟩ := b
  obtain rfl : root = some t := hroot
  exact ⟨rfl, rfl⟩

/-- What inserting does after a value or its absence has been established. -/
theorem insertUniqueKey_eq {t : Tree α} (hroot : b.root = some t) (k : κ) (v : α) :
    insertUniqueKey P b k v =
      if (internalLocate P k t).2 = kExactMatch then
        some (b, (internalLocate P k t).1.internalLast, false)
      else
        match if (internalLocate P k t).2 = 0 then
            (internalLocate P k t).1.internalLast.filter (notBefore P k) else none with
        | some last => some (b, some last, false)
        | none => (internalInsert P b (internalLocate P k t).1 v).map
            fun (b'', it) => (b'', some it, true) := by
  obtain ⟨hstart, hsame⟩ := startRoot_of_root hroot
  unfold insertUniqueKey
  simp only [hsame]
  rw [hstart]

section AtCut

variable {it : Iterator α} {v : α} (hb : UniqueOk P b) (hroot : b.root = some it.tree)
  (hvalid : it.Valid) (hcut : IsCut (P.order.below P.key (P.key v)) it.before it.rest)

include hb hroot hcut

/-- The place of the key that locating arrives at is the one of any iterator at the cut. -/
theorem rank_internalLocate :
    (internalLocate P (P.key v) it.tree).1.tree = it.tree ∧
      (internalLocate P (P.key v) it.tree).1.before = it.before ∧
      (internalLocate P (P.key v) it.tree).1.rest = it.rest := by
  have hord := hb.ordered
  rw [values_of_root hroot] at hord
  obtain ⟨hloc, -, -⟩ := internalLocate_spec (hb.ok.root _ hroot) hord (P.key v)
  have hwhole := (internalLocate P (P.key v) it.tree).1.inorder_tree
  rw [hloc.tree, Iterator.inorder_tree] at hwhole
  obtain ⟨hbefore, hrest⟩ := hloc.cut.unique hcut hwhole.symm
  exact ⟨hloc.tree, hbefore, hrest⟩

include hvalid

/-- Without a value under the key, inserting is inserting at the place of the key. -/
theorem insertUnique_absent
    (hnone : ∀ x ∈ b.values, ¬P.order.Equivalent (P.key x) (P.key v)) :
    insertUnique P b v = (internalInsert P b it v).map fun r => (r.1, some r.2, true) := by
  have hok := hb.ok.root _ hroot
  have hord := hb.ordered
  rw [values_of_root hroot] at hord hnone
  obtain ⟨htree, hbefore, -⟩ := rank_internalLocate hb hroot hcut
  obtain ⟨hloc, hp, hcases⟩ := internalLocate_spec hok hord (P.key v)
  have hslot : leafSlot (internalLocate P (P.key v) it.tree).1 = leafSlot it :=
    leafSlot_congr (by rw [htree]; exact hok) htree hp hvalid.position_le
      (congrArg List.length hbefore)
  have hinsert : internalInsert P b (internalLocate P (P.key v) it.tree).1 v
      = internalInsert P b it v := by
    unfold internalInsert
    rw [hslot]
  have hE := kExactMatch_ne_zero
  unfold insertUnique
  rw [insertUniqueKey_eq hroot, hinsert]
  rcases hcases with ⟨-, w, hw, hequiv⟩ | ⟨hres, -, -⟩ | ⟨hres, -⟩
  · refine absurd hequiv (hnone w ?_)
    rw [← htree]
    exact Iterator.mem_of_value? hw
  · rw [hres, if_neg (by omega), if_neg (by omega)]
  · -- a plain comparison leaves it to the next value to tell
    have hfound := hloc.found hord.ordered hp
    rw [hres, if_neg hE.symm, if_pos rfl]
    cases hlast : (internalLocate P (P.key v) it.tree).1.internalLast.filter
        (notBefore P (P.key v)) with
    | none => rfl
    | some last =>
        rw [hlast] at hfound
        obtain ⟨⟨hlastTree, -⟩, w, hw, hequiv⟩ := hfound
        refine absurd hequiv (hnone w ?_)
        rw [← hlastTree]
        exact Iterator.mem_of_value? hw

/-- With a value under the key nothing is inserted, and the iterator returned points at it. -/
theorem insertUnique_present {w : α} (hw : it.value? = some w)
    (hequiv : P.order.Equivalent (P.key w) (P.key v)) :
    insertUnique P b v = some (b, some it, false) := by
  have hok := hb.ok.root _ hroot
  have hord := hb.ordered
  rw [values_of_root hroot] at hord
  obtain ⟨htree, hbefore, -⟩ := rank_internalLocate hb hroot hcut
  obtain ⟨hloc, hp, hcases⟩ := internalLocate_spec hok hord (P.key v)
  have hmem := Iterator.mem_of_value? hw
  have hE := kExactMatch_ne_zero
  unfold insertUnique
  rw [insertUniqueKey_eq hroot]
  rcases hcases with ⟨hres, w', hw', -⟩ | ⟨-, -, hnone⟩ | ⟨hres, -⟩
  · have hpoint := Iterator.Pointing.of_value? hw'
    have heq : (internalLocate P (P.key v) it.tree).1 = it :=
      Iterator.Valid.eq_of_rank (by rw [htree]; exact hok) htree (Or.inl hpoint) hvalid
        (congrArg List.length hbefore)
    rw [if_pos hres, internalLast_pointing hpoint, heq]
  · exact absurd hequiv (hnone w hmem)
  · have hfound := hloc.found hord.ordered hp
    rw [hres, if_neg hE.symm, if_pos rfl]
    cases hlast : (internalLocate P (P.key v) it.tree).1.internalLast.filter
        (notBefore P (P.key v)) with
    | none =>
        rw [hlast] at hfound
        exact absurd hequiv (hfound w hmem)
    | some last =>
        rw [hlast] at hfound
        obtain ⟨⟨hlastTree, hlastCut⟩, w', hw', -⟩ := hfound
        -- both are at the cut below the key, and there is one iterator to each place
        have hwhole := last.inorder_tree
        rw [hlastTree, Iterator.inorder_tree] at hwhole
        have hrank := (hlastCut.unique hcut hwhole.symm).1
        have heq : last = it := Iterator.Valid.eq_of_rank (by rw [hlastTree]; exact hok) hlastTree
          (Or.inl (Iterator.Pointing.of_value? hw')) hvalid (congrArg List.length hrank)
        rw [heq]

end AtCut

/-- Locating a key in a leaf without values. -/
theorem internalLocate_initLeaf (P : BtreeParams κ α) (k : κ) :
    (internalLocate P k ⟨0, BtreeNode.initLeaf 1⟩).1 = ⟨0, BtreeNode.initLeaf 1, 0, .root⟩ ∧
      ((internalLocate P k ⟨0, BtreeNode.initLeaf 1⟩).2 = 0 ∨
        (internalLocate P k ⟨0, BtreeNode.initLeaf 1⟩).2 = -kExactMatch) := by
  have hord : P.order.Ordered P.key (BtreeNode.initLeaf 1 : Node α 0).values := List.Pairwise.nil
  unfold internalLocate
  cases hc : P.keyCompare with
  | plain comp =>
      have hplace := BtreeNode.lowerBound_plain hc hord k
      change (BtreeNode.initLeaf 1 : Node α 0).lowerBound P k = 0 at hplace
      refine ⟨?_, Or.inl rfl⟩
      show (⟨0, BtreeNode.initLeaf 1, (BtreeNode.initLeaf 1 : Node α 0).lowerBound P k, .root⟩ :
        Iterator α) = _
      rw [hplace]
  | compareTo comp =>
      have hcount : (BtreeNode.initLeaf 1 : Node α 0).count < kExactMatch := by
        unfold kExactMatch
        exact Nat.two_pow_pos 30
      have hplace := BtreeNode.lowerBound_eq hord hcount k
      change (BtreeNode.initLeaf 1 : Node α 0).lowerBound P k &&& kMatchMask = 0 at hplace
      have hflag : ¬(BtreeNode.initLeaf 1 : Node α 0).lowerBound P k &&& kExactMatch ≠ 0 := by
        rw [lowerBound_flag hc hord hcount k]
        rintro ⟨v, c, hentry, -⟩
        cases hentry
      have heq : internalLocateCompareTo P k ⟨0, BtreeNode.initLeaf 1⟩
          = (⟨0, BtreeNode.initLeaf 1, 0, .root⟩, -(kExactMatch : ℤ)) := by
        show (if _ then _ else _) = _
        rw [if_neg hflag, hplace]
      rw [heq]
      exact ⟨rfl, Or.inr rfl⟩

/-- Inserting into an empty tree. -/
theorem insertUnique_empty (P : BtreeParams κ α) (hroot : b.root = none) (v : α) :
    insertUnique P b v = (internalInsert P ⟨some ⟨0, BtreeNode.initLeaf 1⟩, b.rootSize⟩
      ⟨0, BtreeNode.initLeaf 1, 0, .root⟩ v).map fun r => (r.1, some r.2, true) := by
  obtain ⟨hfst, hsnd⟩ := internalLocate_initLeaf P (P.key v)
  have hstart : b.startRoot = ⟨0, BtreeNode.initLeaf 1⟩ := by
    unfold startRoot
    rw [hroot]
    rfl
  have hE := kExactMatch_ne_zero
  unfold insertUnique insertUniqueKey
  simp only [hstart, hfst]
  rcases hsnd with hres | hres
  · rw [hres, if_neg hE.symm, if_pos rfl]
    rfl
  · rw [hres, if_neg (by omega), if_neg (by omega)]

/-- A value put at the cut below its key, where the key has none. -/
theorem uniqueOk_insertNew (hb : UniqueOk P b) {b' : Btree α} {it' : Iterator α} {l m : List α}
    {v : α} (hvalues : b.values = l ++ m) (hcut : IsCut (P.order.below P.key (P.key v)) l m)
    (hnone : (P.order.bucket P.key (P.key v) b.values).isEmpty) (hok : b'.Ok P)
    (hroot : b'.root = some it'.tree) (hbefore : it'.before = l) (hrest : it'.rest = v :: m) :
    UniqueOk P b' ∧ b'.values = P.order.insertNew P.key v b.values := by
  have hnew : b'.values = P.order.insertNew P.key v b.values := by
    obtain ⟨hl, hm⟩ := hcut.eq_while
    unfold StrictWeakOrder.insertNew
    rw [if_pos hnone, hvalues, ← hl, ← hm, values_of_root hroot, Iterator.inorder_tree, hbefore,
      hrest]
  refine ⟨⟨hok, ?_⟩, hnew⟩
  rw [hnew]
  exact hb.ordered.insertNew v

/-- **`insert_unique`** puts a value at the place of its key if the tree has none under it, and
changes nothing otherwise; the iterator returned points at the value with the key. -/
theorem insertUnique_spec (hb : UniqueOk P b) (v : α) :
    ∃ b' it w, insertUnique P b v
        = some (b', some it, (P.order.bucket P.key (P.key v) b.values).isEmpty) ∧
      UniqueOk P b' ∧ b'.values = P.order.insertNew P.key v b.values ∧ b'.root = some it.tree ∧
      it.value? = some w ∧ P.order.Equivalent (P.key w) (P.key v) ∧
      w = (P.order.bucket P.key (P.key v) b.values).head?.getD v := by
  cases hroot : b.root with
  | none =>
      obtain ⟨b', it', hinsert, hok, hroot', hv, hbefore, hrest⟩ :=
        insert_first P b.rootSize v
      have hnil : b.values = [] := values_of_none hroot
      have hnone : (P.order.bucket P.key (P.key v) b.values).isEmpty := by
        rw [hnil]
        rfl
      have hcut : IsCut (P.order.below P.key (P.key v)) [] [] :=
        ⟨fun x hx => absurd hx List.not_mem_nil, fun x hx => absurd hx List.not_mem_nil⟩
      obtain ⟨hb', hnew⟩ := uniqueOk_insertNew hb hnil hcut hnone hok hroot' hbefore hrest
      refine ⟨b', it', v, ?_, hb', hnew, hroot', hv, P.order.equivalent_refl _, ?_⟩
      · rw [insertUnique_empty P hroot, hinsert, hnone]
        rfl
      · rw [List.isEmpty_iff.mp hnone]
        rfl
  | some t =>
      have hok := hb.ok.root _ hroot
      have hord := hb.ordered
      rw [values_of_root hroot] at hord
      obtain ⟨⟨htree, hcut⟩, hvalid⟩ := lowerBound_cut hok hord.ordered (P.key v)
      generalize lowerBound P (P.key v) t = it at htree hcut hvalid
      subst htree
      have hvalues : b.values = it.before ++ it.rest := by
        rw [values_of_root hroot, Iterator.inorder_tree]
      by_cases hnone : (P.order.bucket P.key (P.key v) b.values).isEmpty
      · obtain ⟨b', it', hinsert, hok', hroot', hv, hbefore, hrest⟩ :=
          insert_place hb.ok hroot hvalid.position_le v
        obtain ⟨hb', hnew⟩ :=
          uniqueOk_insertNew hb hvalues hcut hnone hok' hroot' hbefore hrest
        refine ⟨b', it', v, ?_, hb', hnew, hroot', hv, P.order.equivalent_refl _, ?_⟩
        · rw [insertUnique_absent hb hroot hvalid hcut (StrictWeakOrder.bucket_eq_nil.mp
            (List.isEmpty_iff.mp hnone)), hinsert, hnone]
          rfl
        · rw [List.isEmpty_iff.mp hnone]
          rfl
      · -- the one value under the key comes first after the cut
        obtain ⟨x, hx⟩ := List.exists_mem_of_ne_nil _ fun h => hnone (List.isEmpty_iff.mpr h)
        obtain ⟨hx, hequiv⟩ := StrictWeakOrder.mem_bucket.mp hx
        rw [hvalues] at hx
        have hxr : x ∈ it.rest := by
          refine (List.mem_append.mp hx).resolve_left fun hxl => ?_
          exact Bool.false_ne_true (hequiv.1.symm.trans (hcut.holds x hxl))
        obtain ⟨w, tail, hrest⟩ := List.exists_cons_of_ne_nil (List.ne_nil_of_mem hxr)
        have hw := hvalid.normal.value? hrest
        rw [Iterator.inorder_tree, hrest] at hord
        rw [hrest] at hcut hx
        obtain rfl := hord.equivalent_head hcut hx hequiv
        rw [← hrest] at hcut
        refine ⟨b, it, x, ?_, hb, ?_, hroot, hw, hequiv, ?_⟩
        · rw [insertUnique_present hb hroot hvalid hcut hw hequiv,
            Bool.eq_false_of_not_eq_true hnone]
        · unfold StrictWeakOrder.insertNew
          rw [if_neg hnone]
        · rw [hb.ordered.bucket_of_mem (by rw [hvalues, hrest]; exact hx) hequiv]
          rfl

/-! ## Hints -/

/-- What the comparison with the end of the tree says of an iterator. -/
theorem same_end_iff {K : ℕ} {it : Iterator α} (hok : RootOk K it.tree) (hvalid : it.Valid) :
    it.same it.tree.end_ = true ↔ it.rest = [] := by
  obtain ⟨htree, hbefore, -, -⟩ := end_spec it.tree
  rw [Iterator.Valid.same_iff hok htree.symm hvalid (end_valid _), hbefore, Iterator.inorder_tree,
    List.length_append, ← List.length_eq_zero_iff]
  omega

theorem same_begin_iff {K : ℕ} {it : Iterator α} (hok : RootOk K it.tree) (hvalid : it.Valid) :
    it.same it.tree.begin = true ↔ it.before = [] := by
  obtain ⟨htree, hbefore, -, -⟩ := begin_spec hok
  rw [Iterator.Valid.same_iff hok htree.symm hvalid (begin_valid hok), hbefore, List.length_nil,
    List.length_eq_zero_iff]

section Hint

variable {K : ℕ} {it : Iterator α} (hok : RootOk K it.tree) (hvalid : it.Valid)

include hok hvalid

/-- What holds of the value at the iterator, and passes on to later values, holds from the iterator
on. -/
theorem all_rest {q : α → Prop} (hup : it.tree.inorder.Pairwise fun x y => q x → q y)
    (hhead : it.same it.tree.end_ = true ∨ ∃ w, it.value? = some w ∧ q w) :
    ∀ x ∈ it.rest, q x := by
  intro x hx
  rcases hhead with hend | ⟨w, hw, hq⟩
  · rw [(same_end_iff hok hvalid).mp hend] at hx
    exact absurd hx List.not_mem_nil
  · obtain ⟨tail, hrest⟩ := Iterator.rest_of_value? hw
    rw [Iterator.inorder_tree, hrest] at hup
    rw [hrest] at hx
    rcases List.mem_cons.mp hx with rfl | hx
    · exact hq
    · exact List.rel_of_pairwise_cons (List.pairwise_append.mp hup).2.1 hx hq

/-- What holds of the value before the iterator, and passes on to earlier values, holds before the
iterator. -/
theorem all_before {q : α → Prop} (hdown : it.tree.inorder.Pairwise fun x y => q y → q x)
    (hlast : it.same it.tree.begin = true ∨
      ∀ prev, decrement it = some prev → ∃ w, prev.value? = some w ∧ q w) :
    ∀ x ∈ it.before, q x := by
  intro x hx
  rcases hlast with hbegin | hprev
  · rw [(same_begin_iff hok hvalid).mp hbegin] at hx
    exact absurd hx List.not_mem_nil
  · have hspec := decrement_spec hok hvalid.position_le
    cases hdec : decrement it with
    | none =>
        rw [hdec] at hspec
        rw [hspec] at hx
        exact absurd hx List.not_mem_nil
    | some prev =>
        rw [hdec] at hspec
        obtain ⟨-, v, hv, hb, -⟩ := hspec
        obtain ⟨w, hw, hq⟩ := hprev prev hdec
        obtain rfl := Option.some.inj (hv.symm.trans hw)
        rw [Iterator.inorder_tree, hb, List.append_assoc] at hdown
        rw [hb] at hx
        rcases List.mem_append.mp hx with hx | hx
        · exact (List.pairwise_append.mp hdown).2.2 x hx v
            (List.mem_append_left _ List.mem_cons_self) hq
        · rw [List.mem_singleton.mp hx]
          exact hq

end Hint

section Tests

variable {it : Iterator α} {k : κ} (hok : RootOk P.kNodeValues it.tree) (hvalid : it.Valid)
  (hord : P.order.StrictlyOrdered P.key it.tree.inorder)

include hok hvalid hord

/-- The first test of the hint: the key is before the iterator. -/
theorem greater_of_test (htest : (it.same it.tree.end_ || keyLess P k it) = true) :
    ∀ x ∈ it.rest, P.order.lt k (P.key x) = true := by
  refine all_rest hok hvalid (List.Pairwise.imp (fun hxy hx => P.order.trans hx hxy) hord) ?_
  rcases (Bool.or_eq_true _ _).mp htest with hend | hless
  · exact Or.inl hend
  · exact Or.inr ((Option.any_eq_true _ _).mp hless)

/-- The second test: the key is after what comes before the iterator. -/
theorem less_of_test
    (htest : (it.same it.tree.begin || (decrement it).any (lessKey P · k)) = true) :
    ∀ x ∈ it.before, P.order.lt (P.key x) k = true := by
  refine all_before hok hvalid (List.Pairwise.imp (fun hxy hy => P.order.trans hxy hy) hord) ?_
  rcases (Bool.or_eq_true _ _).mp htest with hbegin | hless
  · exact Or.inl hbegin
  · refine Or.inr fun prev hprev => ?_
    rw [hprev] at hless
    exact (Option.any_eq_true _ _).mp hless

end Tests

/-- An iterator between the smaller keys and the greater ones is the place of a key that the tree
does not have. -/
theorem insertUnique_between {it : Iterator α} {v : α} (hb : UniqueOk P b)
    (hroot : b.root = some it.tree) (hvalid : it.Valid)
    (hless : ∀ x ∈ it.before, P.order.lt (P.key x) (P.key v) = true)
    (hgreater : ∀ x ∈ it.rest, P.order.lt (P.key v) (P.key x) = true) :
    (internalInsert P b it v).map (fun r => (r.1, some r.2))
      = (insertUnique P b v).map fun r => (r.1, r.2.1) := by
  have hcut : IsCut (P.order.below P.key (P.key v)) it.before it.rest :=
    ⟨hless, fun x hx => P.order.asymm (hgreater x hx)⟩
  have hnone : ∀ x ∈ b.values, ¬P.order.Equivalent (P.key x) (P.key v) := by
    intro x hx hequiv
    rw [values_of_root hroot, Iterator.inorder_tree] at hx
    rcases List.mem_append.mp hx with hx | hx
    · exact Bool.false_ne_true (hequiv.1.symm.trans (hless x hx))
    · exact Bool.false_ne_true (hequiv.2.symm.trans (hgreater x hx))
  rw [insertUnique_absent hb hroot hvalid hcut hnone, Option.map_map]
  rfl

/-- **A hint makes no difference** to `insert_unique`: wherever it points, the nodes of the tree
and the iterator returned are those of inserting without one. -/
theorem insertUniqueHint_eq {position : Option (Iterator α)} (hb : UniqueOk P b)
    (hposition : b.ValidIn position) (v : α) :
    insertUniqueHint P b position v = (insertUnique P b v).map fun r => (r.1, r.2.1) := by
  obtain ⟨hmap, hvalid⟩ := hposition
  unfold insertUniqueHint
  cases position with
  | none =>
      have hroot : b.root = none := hmap.symm
      rw [hroot]
  | some it =>
      have hroot : b.root = some it.tree := hmap.symm
      have hvalid : it.Valid := hvalid it rfl
      have hok := hb.ok.root _ hroot
      have hord := hb.ordered
      rw [values_of_root hroot] at hord
      rw [hroot]
      simp only
      by_cases hgreater : (it.same it.tree.end_ || keyLess P (P.key v) it) = true
      · rw [if_pos hgreater]
        by_cases hless :
            (it.same it.tree.begin || (decrement it).any (lessKey P · (P.key v))) = true
        · rw [if_pos hless]
          exact insertUnique_between hb hroot hvalid (less_of_test hok hvalid hord hless)
            (greater_of_test hok hvalid hord hgreater)
        · rw [if_neg hless]
      · rw [if_neg hgreater]
        -- not at the end, and the key is not before the value there
        have hnot := Bool.or_eq_false_iff.mp (Bool.eq_false_of_not_eq_true hgreater)
        have hne : it.rest ≠ [] := fun hnil =>
          Bool.false_ne_true (hnot.1.symm.trans ((same_end_iff hok hvalid).mpr hnil))
        obtain ⟨w, tail, hrest⟩ := List.exists_cons_of_ne_nil hne
        have hw := hvalid.normal.value? hrest
        have hnotless : P.order.lt (P.key v) (P.key w) = false := by
          have := hnot.2
          unfold keyLess at this
          rw [hw] at this
          exact this
        have hlessKey : lessKey P it (P.key v) = P.order.lt (P.key w) (P.key v) := by
          unfold lessKey
          rw [hw]
          rfl
        have hord' := hord
        rw [Iterator.inorder_tree, hrest] at hord'
        obtain ⟨-, htail, hcross⟩ := List.pairwise_append.mp hord'
        rw [hlessKey]
        by_cases hless : P.order.lt (P.key w) (P.key v) = true
        · rw [if_pos hless]
          obtain ⟨htree, hb', hr'⟩ := increment_spec hw
          have hvalid' := increment_valid hok (Iterator.Pointing.of_value? hw)
          by_cases hgreater' : ((increment it).same it.tree.end_ ||
              keyLess P (P.key v) (increment it)) = true
          · rw [if_pos hgreater']
            refine insertUnique_between hb (by rw [htree]; exact hroot) hvalid' ?_
              (greater_of_test (by rw [htree]; exact hok) hvalid' (by rw [htree]; exact hord)
                (by rw [htree]; exact hgreater'))
            intro x hx
            rw [hb'] at hx
            rcases List.mem_append.mp hx with hx | hx
            · exact P.order.trans (hcross x hx w List.mem_cons_self) hless
            · obtain rfl := List.mem_singleton.mp hx
              exact hless
          · rw [if_neg hgreater']
        · -- neither before nor after: the tree has the key, and the iterator is at its place
          rw [if_neg hless]
          have hequiv : P.order.Equivalent (P.key w) (P.key v) :=
            ⟨Bool.eq_false_of_not_eq_true hless, hnotless⟩
          have hcut : IsCut (P.order.below P.key (P.key v)) it.before it.rest := by
            refine ⟨fun x hx => ?_, fun x hx => ?_⟩
            · exact StrictWeakOrder.lt_of_lt_of_not_lt (hcross x hx w List.mem_cons_self) hnotless
            · rw [hrest] at hx
              rcases List.mem_cons.mp hx with rfl | hx
              · exact hequiv.1
              · exact StrictWeakOrder.not_lt_trans
                  (P.order.asymm (List.rel_of_pairwise_cons htail hx)) hequiv.1
          rw [insertUnique_present hb hroot hvalid hcut hw hequiv]
          rfl

theorem end_validIn (b : Btree α) : b.ValidIn b.end_ := by
  unfold ValidIn end_
  cases b.root with
  | none => exact ⟨rfl, fun it hit => absurd hit (Option.not_mem_none it)⟩
  | some t =>
      refine ⟨congrArg some (end_spec t).1, fun it hit => ?_⟩
      obtain rfl := Option.some.inj hit
      exact end_valid t

theorem smallBtree_uniqueOk : UniqueOk smallSet smallBtree := by
  refine ⟨smallBtree_ok, ?_⟩
  show smallSet.order.StrictlyOrdered smallSet.key [1, 2, 3, 4, 5, 6, 7, 8]
  unfold StrictWeakOrder.StrictlyOrdered
  decide

/-- **A range is inserted value by value**, a value only where its key is new. -/
theorem insertUniqueRange_spec (hb : UniqueOk P b) (vs : List α) :
    ∃ b', insertUniqueRange P b vs = some b' ∧ UniqueOk P b' ∧
      b'.values = vs.foldl (fun l v => P.order.insertNew P.key v l) b.values := by
  unfold insertUniqueRange
  induction vs generalizing b with
  | nil => exact ⟨b, rfl, hb, rfl⟩
  | cons v vs ih =>
      obtain ⟨b', it, w, hinsert, hb', hvalues, -⟩ := insertUnique_spec hb v
      obtain ⟨b'', hrange, hb'', hvalues'⟩ := ih hb'
      refine ⟨b'', ?_, hb'', ?_⟩
      · rw [List.foldlM_cons, insertUniqueHint_eq hb (end_validIn b), hinsert]
        exact hrange
      · rw [hvalues', hvalues]
        rfl

end Insert

/-! ## Finding and erasing -/

section Erase

variable {P : BtreeParams κ α} {b : Btree α}

/-- The value that is found is the only one under its key. -/
theorem bucket_of_found (hb : UniqueOk P b) {t : Tree α} (hroot : b.root = some t) {k : κ}
    {it : Iterator α} (hcut : AtCut (P.order.below P.key k) t it) {w : α} (hw : it.value? = some w)
    (hequiv : P.order.Equivalent (P.key w) k) : P.order.bucket P.key k b.values = [w] := by
  refine hb.ordered.bucket_of_mem ?_ hequiv
  rw [values_of_root hroot, ← hcut.tree]
  exact Iterator.mem_of_value? hw

/-- **`find_unique`** gives the end, or an iterator to the value under the key. -/
theorem findUnique_spec (hb : UniqueOk P b) (k : κ) :
    b.ValidIn (findUnique P b k) ∧
      (findUnique P b k).bind Iterator.value? = (P.order.bucket P.key k b.values).head? := by
  unfold findUnique ValidIn
  cases hroot : b.root with
  | none =>
      refine ⟨⟨rfl, fun it hit => absurd hit (Option.not_mem_none it)⟩, ?_⟩
      rw [values_of_none hroot]
      rfl
  | some t =>
      have hord := hb.ordered
      rw [values_of_root hroot] at hord
      have hfound := internalFindUnique_spec (hb.ok.root _ hroot) hord k
      rw [Option.map_some, Option.map_some, Option.bind_some]
      cases hfind : internalFindUnique P k t with
      | none =>
          rw [hfind] at hfound
          refine ⟨⟨congrArg some (end_spec t).1, fun it hit => ?_⟩, ?_⟩
          · obtain rfl := Option.some.inj hit
            exact end_valid t
          · rw [values_of_root hroot, StrictWeakOrder.bucket_eq_nil.mpr hfound]
            exact end_value? t
      | some it =>
          rw [hfind] at hfound
          obtain ⟨hcut, w, hw, hequiv⟩ := hfound
          refine ⟨⟨congrArg some hcut.tree, fun it' hit => ?_⟩, ?_⟩
          · obtain rfl := Option.some.inj hit
            exact Or.inl (Iterator.Pointing.of_value? hw)
          · rw [bucket_of_found hb hroot hcut hw hequiv]
            exact hw

/-- **`count_unique`** counts the values under the key. -/
theorem countUnique_spec (hb : UniqueOk P b) (k : κ) :
    countUnique P b k = (P.order.bucket P.key k b.values).length := by
  unfold countUnique
  cases hroot : b.root with
  | none =>
      rw [values_of_none hroot]
      rfl
  | some t =>
      have hord := hb.ordered
      rw [values_of_root hroot] at hord
      have hfound := internalFindUnique_spec (hb.ok.root _ hroot) hord k
      rw [Option.bind_some]
      cases hfind : internalFindUnique P k t with
      | none =>
          rw [hfind] at hfound
          rw [values_of_root hroot, StrictWeakOrder.bucket_eq_nil.mpr hfound]
          rfl
      | some it =>
          rw [hfind] at hfound
          obtain ⟨hcut, w, hw, hequiv⟩ := hfound
          rw [bucket_of_found hb hroot hcut hw hequiv]
          rfl

/-- **`erase_unique`** takes out the value under the key, if there is one, and says how many it took
out. -/
theorem eraseUnique_spec (hb : UniqueOk P b) (k : κ) :
    ∃ b', eraseUnique P b k = some (b', (P.order.bucket P.key k b.values).length) ∧
      UniqueOk P b' ∧ b'.values = P.order.eraseKey P.key k b.values := by
  have hnothing : P.order.bucket P.key k b.values = [] →
      P.order.eraseKey P.key k b.values = b.values :=
    fun hnil => StrictWeakOrder.eraseKey_eq_self (StrictWeakOrder.bucket_eq_nil.mp hnil)
  unfold eraseUnique
  cases hroot : b.root with
  | none =>
      have hnil : P.order.bucket P.key k b.values = [] := by
        rw [values_of_none hroot]
        rfl
      exact ⟨b, by rw [hnil]; rfl, hb, (hnothing hnil).symm⟩
  | some t =>
      have hord := hb.ordered
      rw [values_of_root hroot] at hord
      have hfound := internalFindUnique_spec (hb.ok.root _ hroot) hord k
      rw [Option.bind_some]
      cases hfind : internalFindUnique P k t with
      | none =>
          rw [hfind] at hfound
          have hnil : P.order.bucket P.key k b.values = [] := by
            rw [values_of_root hroot]
            exact StrictWeakOrder.bucket_eq_nil.mpr hfound
          exact ⟨b, by rw [hnil]; rfl, hb, (hnothing hnil).symm⟩
      | some it =>
          rw [hfind] at hfound
          obtain ⟨⟨htree, hcut⟩, w, hw, hequiv⟩ := hfound
          obtain rfl := htree.symm
          obtain ⟨tail, hrest⟩ := Iterator.rest_of_value? hw
          obtain ⟨b', res, herase, hok, hvalues, -⟩ := erase_spec hb.ok hb.ordered.ordered hroot hw
          have hwhole : b.values = it.before ++ ([w] ++ tail) := by
            rw [values_of_root hroot, Iterator.inorder_tree, hrest]
            rfl
          rw [Iterator.inorder_tree, hrest] at hord
          rw [hrest] at hcut
          -- what is under the key stands between the cut below it and the cut up to it
          obtain ⟨hbucket, herased⟩ := StrictWeakOrder.eraseKey_of_cuts (m := [w]) hcut
            (hord.isCut_upTo hcut hequiv)
          have hnew : b'.values = P.order.eraseKey P.key k b.values := by
            rw [hvalues, hwhole, herased, hrest]
            rfl
          refine ⟨b', ?_, ⟨hok, by rw [hnew]; exact hb.ordered.eraseKey k⟩, hnew⟩
          rw [hwhole, hbucket]
          show (erase P b it).map _ = _
          rw [herase]
          rfl

end Erase

end Btree
