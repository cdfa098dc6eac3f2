/-
# B-trees with equal keys (`storage/btree/btree.tcc`, `btree_container.h`)

The members of `btree` that `btree_multimap` is made of, and those that erase, copy and compare
whole ranges.

* `insertMulti_spec` : a value comes after all values whose keys are not greater, so last under its
  key;
* `insertMultiHint_spec` : with a hint it is put there, or one further on, where that is in order;
  the end for a hint makes no difference (`insertMultiHint_end`);
* `insertMultiHint_erase`, `erase_insertMultiHint` : inserting and erasing undo each other;
* `eraseRange_spec` : erasing from one iterator to another takes out the values between them;
* `eraseMulti_spec`, `countMulti_spec`, `findMulti_spec` : by key;
* `assign_spec` : a copy has the same values, `containerEq_spec` : and compares equal.
-/
import Atlasdb.BtreeUnique

namespace Btree

open BtreeSearch

variable {κ α : Type}

section Definitions

variable (P : BtreeParams κ α)

/-- `insert_multi(v)` -/
def insertMulti (b : Btree α) (v : α) : Option (Btree α × Option (Iterator α)) :=
  (internalInsert P ⟨some b.startRoot, b.rootSize⟩ (upperBound P (P.key v) b.startRoot) v).map
    fun r => (r.1, some r.2)

/-- `insert_multi(position, v)` -/
def insertMultiHint (b : Btree α) (position : Option (Iterator α)) (v : α) :
    Option (Btree α × Option (Iterator α)) :=
  match b.root, position with
  | some t, some it =>
      if it.same t.end_ || !lessKey P it (P.key v) then
        if it.same t.begin || !(decrement it).any (keyLess P (P.key v)) then
          (internalInsert P b it v).map fun r => (r.1, some r.2)
        else insertMulti P b v
      else
        if (increment it).same t.end_ || !lessKey P (increment it) (P.key v) then
          (internalInsert P b (increment it) v).map fun r => (r.1, some r.2)
        else insertMulti P b v
  | _, _ => insertMulti P b v

/-- `insert_multi(b, e)`: each value in turn, with the end for a hint. -/
def insertMultiRange (b : Btree α) (vs : List α) : Option (Btree α) :=
  vs.foldlM (fun b v => (insertMultiHint P b b.end_ v).map Prod.fst) b

/-- `distance(first, last)` in a tree; in an empty one both have no node. -/
def distanceIn (b : Btree α) (first last : Option (Iterator α)) : Option ℕ :=
  match first, last with
  | some first, some last => distance b.size first last
  | none, none => some 0
  | _, _ => none

/-- The loop of `erase(begin, end)`: each time at the iterator that the erasure before returned. -/
def eraseTimes : ℕ → Btree α → Option (Iterator α) → Option (Btree α × Option (Iterator α))
  | 0, b, it => some (b, it)
  | _ + 1, _, none => none
  | n + 1, b, some it => (erase P b it).bind fun r => eraseTimes n r.1 r.2

/-- `erase(begin, end)` -/
def eraseRange (b : Btree α) (first last : Option (Iterator α)) : Option (Btree α × ℕ) :=
  (distanceIn b first last).bind fun count =>
    (eraseTimes P count b first).map fun r => (r.1, count)

/-- `erase_multi(key)` -/
def eraseMulti (b : Btree α) (k : κ) : Option (Btree α × ℕ) :=
  match b.root with
  | none => some (b, 0)
  | some t =>
      match internalLowerBound P k t with
      | none => some (b, 0)
      | some first => eraseRange P b (some first) (some (internalEnd t (internalUpperBound P k t)))

/-- `lower_bound(key)` -/
def lowerBoundIn (b : Btree α) (k : κ) : Option (Iterator α) := b.root.map (lowerBound P k)

/-- `upper_bound(key)` -/
def upperBoundIn (b : Btree α) (k : κ) : Option (Iterator α) := b.root.map (upperBound P k)

/-- `equal_range(key)` -/
def equalRange (b : Btree α) (k : κ) : Option (Iterator α) × Option (Iterator α) :=
  (lowerBoundIn P b k, upperBoundIn P b k)

/-- `count_multi(key)` -/
def countMulti (b : Btree α) (k : κ) : Option ℕ :=
  distanceIn b (lowerBoundIn P b k) (upperBoundIn P b k)

/-- `find_multi(key)` -/
def findMulti (b : Btree α) (k : κ) : Option (Iterator α) :=
  b.root.map fun t => internalEnd t (internalFindMulti P k t)

/-- What the loop of `assign` does with a value, which comes after those of the tree. -/
def assignValue (b : Btree α) (v : α) : Option (Btree α) :=
  match b.root with
  | none => (insertMulti P b v).map Prod.fst
  | some t => (internalInsert P b t.end_ v).map Prod.fst

/-- The loop of `assign`, from an iterator of the other tree on. -/
def assignFrom : ℕ → Iterator α → Iterator α → Btree α → Option (Btree α)
  | fuel, it, last, b =>
      if it.same last then some b
      else
        match fuel with
        | 0 => none
        | fuel + 1 =>
            it.value?.bind fun v => (assignValue P b v).bind fun b' =>
              assignFrom fuel (increment it) last b'

/-- `assign(x)`, which clears the tree first. -/
def assign (x : Btree α) : Option (Btree α) :=
  match x.root with
  | none => some empty
  | some t => assignFrom P x.size t.begin t.end_ empty

/-- The loop of the `operator==` of `btree_container`. -/
def equalFrom [DecidableEq α] : ℕ → Iterator α → Iterator α → Iterator α → Option Bool
  | fuel, it, last, xit =>
      if it.same last then some true
      else
        match fuel with
        | 0 => none
        | fuel + 1 =>
            it.value?.bind fun v => xit.value?.bind fun w =>
            if v = w then equalFrom fuel (increment it) last (increment xit) else some false

/-- `operator==` of `btree_container` -/
def containerEq [DecidableEq α] (b x : Btree α) : Option Bool :=
  if b.size = x.size then
    match b.root, x.root with
    | some t, some tx => equalFrom b.size t.begin t.end_ tx.begin
    | none, _ => some true
    | some _, none => none
  else some false

end Definitions

/-- The invariant of a tree with equal keys. -/
structure MultiOk (P : BtreeParams κ α) (b : Btree α) : Prop where
  ok : b.Ok P
  ordered : P.order.Ordered P.key b.values

theorem UniqueOk.multiOk {P : BtreeParams κ α} {b : Btree α} (hb : UniqueOk P b) : MultiOk P b :=
  ⟨hb.ok, hb.ordered.ordered⟩

theorem multiOk_empty (P : BtreeParams κ α) : MultiOk P (empty : Btree α) :=
  (uniqueOk_empty P).multiOk

section Insert

variable {P : BtreeParams κ α} {b : Btree α}

/-- What inserting a value gives: the tree with the value at the iterator returned, and without
it the tree before. -/
structure Inserted (P : BtreeParams κ α) (b : Btree α) (v : α) (b' : Btree α) (it : Iterator α) :
    Prop where
  multiOk : MultiOk P b'
  root : b'.root = some it.tree
  value : it.value? = some v
  old : b.values = it.before ++ it.rest.tail

/-- Inserting between values that are not greater and values that are not less. -/
theorem insert_between {it : Iterator α} {v : α} (hb : MultiOk P b) (hroot : b.root = some it.tree)
    (hp : it.position ≤ it.node.count)
    (hbefore : ∀ x ∈ it.before, P.order.lt (P.key v) (P.key x) = false)
    (hrest : ∀ x ∈ it.rest, P.order.lt (P.key x) (P.key v) = false) :
    ∃ b' it', internalInsert P b it v = some (b', it') ∧ Inserted P b v b' it' ∧
      b'.values = it.before ++ v :: it.rest := by
  obtain ⟨b', it', hinsert, hok, hroot', hv, hb', hr'⟩ := insert_place hb.ok hroot hp v
  have hold : b.values = it.before ++ it.rest := by
    rw [values_of_root hroot, Iterator.inorder_tree]
  have hnew : b'.values = it.before ++ v :: it.rest := by
    rw [values_of_root hroot', Iterator.inorder_tree, hb', hr']
  refine ⟨b', it', hinsert, ⟨⟨hok, ?_⟩, hroot', hv, ?_⟩, hnew⟩
  · rw [hnew]
    exact StrictWeakOrder.Ordered.insert (hold ▸ hb.ordered) hbefore hrest
  · rw [hold, hb', hr', List.tail_cons]

/-- What is at the cut up to a key is in order with it. -/
theorem order_of_upTo {l m : List α} {v : α} (hcut : IsCut (P.order.upTo P.key (P.key v)) l m) :
    (∀ x ∈ l, P.order.lt (P.key v) (P.key x) = false) ∧
      ∀ x ∈ m, P.order.lt (P.key x) (P.key v) = false := by
  refine ⟨fun x hx => ?_, fun x hx => ?_⟩
  · have := hcut.holds x hx
    unfold StrictWeakOrder.upTo at this
    rwa [Bool.not_eq_true'] at this
  · have := hcut.fails x hx
    unfold StrictWeakOrder.upTo at this
    rw [Bool.not_eq_false'] at this
    exact P.order.asymm this

/-- In a leaf without values a key belongs at the start. -/
theorem upperBound_initLeaf (P : BtreeParams κ α) (k : κ) :
    upperBound P k ⟨0, BtreeNode.initLeaf 1⟩ = ⟨0, BtreeNode.initLeaf 1, 0, .root⟩ := by
  have hord : P.order.Ordered P.key (BtreeNode.initLeaf 1 : Node α 0).values := List.Pairwise.nil
  have hplace := BtreeNode.upperBound_eq hord k
  change (BtreeNode.initLeaf 1 : Node α 0).upperBound P k = 0 at hplace
  unfold upperBound internalUpperBound descend
  rw [hplace]
  rfl

/-- **`insert_multi`** puts the value after all values whose keys are not greater. -/
theorem insertMulti_spec (hb : MultiOk P b) (v : α) :
    ∃ b' it, insertMulti P b v = some (b', some it) ∧ Inserted P b v b' it ∧
      b'.values = P.order.insertLast P.key v b.values := by
  cases hroot : b.root with
  | none =>
      obtain ⟨b', it', hinsert, hok, hroot', hv, hb', hr'⟩ := insert_first P b.rootSize v
      have hnil : b.values = [] := values_of_none hroot
      have hnew : b'.values = [v] := by
        rw [values_of_root hroot', Iterator.inorder_tree, hb', hr']
        rfl
      refine ⟨b', it', ?_, ⟨⟨hok, ?_⟩, hroot', hv, ?_⟩, ?_⟩
      · unfold insertMulti startRoot
        rw [hroot, Option.getD_none, upperBound_initLeaf, hinsert]
        rfl
      · rw [hnew]
        exact List.pairwise_singleton _ _
      · rw [hnil, hb', hr']
        rfl
      · rw [hnew, hnil]
        rfl
  | some t =>
      have hok := hb.ok.root _ hroot
      have hord := hb.ordered
      rw [values_of_root hroot] at hord
      obtain ⟨hstart, hsame⟩ := startRoot_of_root hroot
      obtain ⟨⟨htree, hcut⟩, hvalid⟩ := upperBound_cut hok hord (P.key v)
      obtain ⟨hbefore, hrest⟩ := order_of_upTo hcut
      obtain ⟨b', it', hinsert, hinserted, hnew⟩ :=
        insert_between hb (by rw [htree]; exact hroot) hvalid.position_le hbefore hrest
      refine ⟨b', it', ?_, hinserted, ?_⟩
      · unfold insertMulti
        rw [hsame, hstart, hinsert]
        rfl
      · obtain ⟨hl, hm⟩ := hcut.eq_while
        have hwhole : b.values = (upperBound P (P.key v) t).before ++
            (upperBound P (P.key v) t).rest := by
          rw [values_of_root hroot, ← Iterator.inorder_tree, htree]
        unfold StrictWeakOrder.insertLast
        rw [hnew, hwhole, ← hl, ← hm]

/-! ## Hints -/

section Tests

variable {it : Iterator α} {k : κ} (hok : RootOk P.kNodeValues it.tree) (hvalid : it.Valid)
  (hord : P.order.Ordered P.key it.tree.inorder)

include hok hvalid hord

/-- The test of a hint: the value there is not before the key. -/
theorem notLess_of_test (htest : (it.same it.tree.end_ || !lessKey P it k) = true) :
    ∀ x ∈ it.rest, P.order.lt (P.key x) k = false := by
  refine all_rest hok hvalid
    (List.Pairwise.imp (fun hxy hx => StrictWeakOrder.not_lt_trans hxy hx) hord) ?_
  by_cases hend : it.same it.tree.end_ = true
  · exact Or.inl hend
  · rw [Bool.eq_false_of_not_eq_true hend, Bool.false_or, Bool.not_eq_true'] at htest
    have hne : it.rest ≠ [] := fun hnil => hend ((same_end_iff hok hvalid).mpr hnil)
    obtain ⟨w, tail, hrest⟩ := List.exists_cons_of_ne_nil hne
    have hw := hvalid.normal.value? hrest
    unfold lessKey at htest
    rw [hw] at htest
    exact Or.inr ⟨w, hw, htest⟩

/-- And the key is not before the value before it. -/
theorem notGreater_of_test
    (htest : (it.same it.tree.begin || !(decrement it).any (keyLess P k)) = true) :
    ∀ x ∈ it.before, P.order.lt k (P.key x) = false := by
  refine all_before hok hvalid
    (List.Pairwise.imp (fun hxy hy => StrictWeakOrder.not_lt_trans hy hxy) hord) ?_
  by_cases hbegin : it.same it.tree.begin = true
  · exact Or.inl hbegin
  · rw [Bool.eq_false_of_not_eq_true hbegin, Bool.false_or, Bool.not_eq_true'] at htest
    refine Or.inr fun prev hprev => ?_
    have hspec := decrement_spec hok hvalid.position_le
    rw [hprev] at htest hspec
    obtain ⟨-, w, hw, -, -⟩ := hspec
    change keyLess P k prev = false at htest
    unfold keyLess at htest
    rw [hw] at htest
    exact ⟨w, hw, htest⟩

end Tests

theorem lessKey_of_rest {it : Iterator α} {k : κ}
    (hrest : ∀ x ∈ it.rest, P.order.lt (P.key x) k = false) : lessKey P it k = false := by
  unfold lessKey
  cases hv : it.value? with
  | none => rfl
  | some w =>
      obtain ⟨tail, htail⟩ := Iterator.rest_of_value? hv
      exact hrest w (by rw [htail]; exact List.mem_cons_self)

theorem keyLess_of_before {it : Iterator α} {k : κ} (hok : RootOk P.kNodeValues it.tree)
    (hvalid : it.Valid) (hbefore : ∀ x ∈ it.before, P.order.lt k (P.key x) = false) :
    (decrement it).any (keyLess P k) = false := by
  have hspec := decrement_spec hok hvalid.position_le
  cases hdec : decrement it with
  | none => rfl
  | some prev =>
      rw [hdec] at hspec
      obtain ⟨-, w, hw, hb, -⟩ := hspec
      show keyLess P k prev = false
      unfold keyLess
      rw [hw]
      refine hbefore w ?_
      rw [hb]
      exact List.mem_append_right _ List.mem_cons_self

/-- The places of an iterator and of the next one, in the list of the values. -/
theorem inOrderAt_iff {l m : List α} {v : α} :
    P.order.InOrderAt P.key l.length v (l ++ m) ↔
      (∀ x ∈ l, P.order.lt (P.key v) (P.key x) = false) ∧
        ∀ x ∈ m, P.order.lt (P.key x) (P.key v) = false := by
  unfold StrictWeakOrder.InOrderAt
  rw [List.take_left, List.drop_left]

/-- Where the test of an iterator fails its place is not in order: the value there is smaller. -/
theorem not_inOrderAt_of_test {it : Iterator α} {v : α} {atEnd : Bool}
    (htest : ¬(atEnd || !lessKey P it (P.key v)) = true) :
    ¬P.order.InOrderAt P.key it.before.length v (it.before ++ it.rest) := by
  intro hin
  rw [lessKey_of_rest (inOrderAt_iff.mp hin).2, Bool.not_false, Bool.or_true] at htest
  exact htest rfl

/-- **A hint is followed where it is in order**, at the iterator or just after it; else the value
is put where it would have been put without the hint. -/
theorem insertMultiHint_spec {position : Option (Iterator α)} (hb : MultiOk P b)
    (hposition : b.ValidIn position) (v : α) :
    ∃ b' it, insertMultiHint P b position v = some (b', some it) ∧ Inserted P b v b' it ∧
      b'.values = P.order.insertHinted P.key (position.elim 0 fun hint => hint.before.length) v
        b.values := by
  obtain ⟨hmap, hvalid⟩ := hposition
  obtain ⟨b₀, it₀, hinsert₀, hinserted₀, hvalues₀⟩ := insertMulti_spec hb v
  unfold insertMultiHint
  cases position with
  | none =>
      have hroot : b.root = none := hmap.symm
      have hnil : b.values = [] := values_of_none hroot
      rw [hroot]
      refine ⟨b₀, it₀, hinsert₀, hinserted₀, ?_⟩
      rw [hvalues₀, hnil]
      exact (if_pos (inOrderAt_iff (l := []).mpr ⟨nofun, nofun⟩)).symm
  | some hint =>
      have hroot : b.root = some hint.tree := hmap.symm
      have hvalid : hint.Valid := hvalid hint rfl
      have hok := hb.ok.root _ hroot
      have hord := hb.ordered
      rw [values_of_root hroot] at hord
      rw [hroot]
      simp only [Option.elim_some]
      have hwhole : b.values = hint.before ++ hint.rest := by
        rw [values_of_root hroot, Iterator.inorder_tree]
      unfold StrictWeakOrder.insertHinted
      by_cases htest : (hint.same hint.tree.end_ || !lessKey P hint (P.key v)) = true
      · rw [if_pos htest]
        have hrest := notLess_of_test hok hvalid hord htest
        by_cases hprev : (hint.same hint.tree.begin ||
            !(decrement hint).any (keyLess P (P.key v))) = true
        · have hbefore := notGreater_of_test hok hvalid hord hprev
          obtain ⟨b', it, hinsert, hinserted, hnew⟩ :=
            insert_between hb hroot hvalid.position_le hbefore hrest
          rw [if_pos hprev, hinsert]
          refine ⟨b', it, rfl, hinserted, ?_⟩
          rw [hnew, hwhole, if_pos (inOrderAt_iff.mpr ⟨hbefore, hrest⟩), List.take_left,
            List.drop_left]
        · -- a value before the iterator is greater, so neither place is in order
          have hnot : ∀ n, hint.before.length ≤ n → ¬P.order.InOrderAt P.key n v b.values := by
            rintro n hn ⟨hbefore, -⟩
            rw [hwhole, List.take_append, List.take_of_length_le hn] at hbefore
            rw [keyLess_of_before hok hvalid fun x hx => hbefore x (List.mem_append_left _ hx),
              Bool.not_false, Bool.or_true] at hprev
            exact hprev rfl
          rw [if_neg hprev, if_neg (hnot _ (Nat.le_refl _)), if_neg (hnot _ (Nat.le_succ _))]
          exact ⟨b₀, it₀, hinsert₀, hinserted₀, hvalues₀⟩
      · rw [if_neg htest]
        -- the value at the iterator is smaller, so the place there is not in order
        have hnot : ¬P.order.InOrderAt P.key hint.before.length v b.values := by
          rw [hwhole]
          exact not_inOrderAt_of_test htest
        obtain ⟨-, hless⟩ := Bool.or_eq_false_iff.mp (Bool.eq_false_of_not_eq_true htest)
        rw [Bool.not_eq_false'] at hless
        obtain ⟨w, hw, hless⟩ : ∃ w, hint.value? = some w ∧ P.order.lt (P.key w) (P.key v) = true :=
          (Option.any_eq_true _ _).mp hless
        obtain ⟨htree, hb', hr'⟩ := increment_spec hw
        have hvalid' := increment_valid hok (Iterator.Pointing.of_value? hw)
        have hlen : hint.before.length + 1 = (increment hint).before.length := by
          rw [hb', List.length_append, List.length_singleton]
        have hwhole' : b.values = (increment hint).before ++ (increment hint).rest := by
          rw [hwhole, hr', hb', List.append_assoc, List.singleton_append]
        rw [if_neg hnot, hlen]
        by_cases hnext : ((increment hint).same hint.tree.end_ ||
            !lessKey P (increment hint) (P.key v)) = true
        · have hbefore : ∀ x ∈ (increment hint).before, P.order.lt (P.key v) (P.key x) = false := by
            intro x hx
            rw [Iterator.inorder_tree, hr'] at hord
            rw [hb'] at hx
            rcases List.mem_append.mp hx with hx | hx
            · exact StrictWeakOrder.not_lt_trans (P.order.asymm hless)
                ((List.pairwise_append.mp hord).2.2 x hx w List.mem_cons_self)
            · rw [List.mem_singleton.mp hx]
              exact P.order.asymm hless
          have hrest := notLess_of_test (by rw [htree]; exact hok) hvalid'
            (by rw [htree]; exact hord) (by rw [htree]; exact hnext)
          -- the place just after the iterator is in order
          obtain ⟨b', it, hinsert, hinserted, hnew⟩ := insert_between hb
            (by rw [htree]; exact hroot) hvalid'.position_le hbefore hrest
          rw [if_pos hnext, hinsert]
          refine ⟨b', it, rfl, hinserted, ?_⟩
          rw [hnew, hwhole', if_pos (inOrderAt_iff.mpr ⟨hbefore, hrest⟩), List.take_left,
            List.drop_left]
        · have hnot' : ¬P.order.InOrderAt P.key (increment hint).before.length v b.values := by
            rw [hwhole']
            exact not_inOrderAt_of_test hnext
          rw [if_neg hnext, if_neg hnot']
          exact ⟨b₀, it₀, hinsert₀, hinserted₀, hvalues₀⟩

/-- **The end for a hint makes no difference**: a value that belongs there is put where it would
have been put. -/
theorem insertMultiHint_end (hb : MultiOk P b) (v : α) :
    insertMultiHint P b b.end_ v = insertMulti P b v := by
  unfold insertMultiHint end_
  cases hroot : b.root with
  | none => rfl
  | some t =>
      have hok := hb.ok.root _ hroot
      have hord := hb.ordered
      rw [values_of_root hroot] at hord
      obtain ⟨htree, hbefore, hrest, -⟩ := end_spec t
      rw [Option.map_some]
      simp only
      rw [Iterator.same_self, Bool.true_or, if_pos rfl]
      by_cases hprev : (t.end_.same t.begin || !(decrement t.end_).any (keyLess P (P.key v))) = true
      · rw [if_pos hprev]
        have hall : ∀ x ∈ t.end_.before, P.order.lt (P.key v) (P.key x) = false :=
          notGreater_of_test (by rw [htree]; exact hok) (end_valid t) (by rw [htree]; exact hord)
            (by rw [htree]; exact hprev)
        obtain ⟨⟨htree', hcut⟩, hvalid⟩ := upperBound_cut hok hord (P.key v)
        have hnil : (upperBound P (P.key v) t).rest = [] := by
          refine List.eq_nil_iff_forall_not_mem.mpr fun x hx => ?_
          have hfails := hcut.fails x hx
          have hmem : x ∈ t.end_.before := by
            rw [hbefore, ← htree', Iterator.inorder_tree]
            exact List.mem_append_right _ hx
          unfold StrictWeakOrder.upTo at hfails
          rw [hall x hmem] at hfails
          exact Bool.false_ne_true hfails.symm
        have hplace : upperBound P (P.key v) t = t.end_ := by
          rw [hvalid.of_rest hnil, htree']
        obtain ⟨hstart, hsame⟩ := startRoot_of_root hroot
        unfold insertMulti
        rw [hsame, hstart, hplace]
      · rw [if_neg hprev]

/-- **A range is inserted value by value**, each after the values whose keys are not greater. -/
theorem insertMultiRange_spec (hb : MultiOk P b) (vs : List α) :
    ∃ b', insertMultiRange P b vs = some b' ∧ MultiOk P b' ∧
      b'.values = vs.foldl (fun l v => P.order.insertLast P.key v l) b.values := by
  unfold insertMultiRange
  induction vs generalizing b with
  | nil => exact ⟨b, rfl, hb, rfl⟩
  | cons v vs ih =>
      obtain ⟨b', it, hinsert, hinserted, hvalues⟩ := insertMulti_spec hb v
      obtain ⟨b'', hrange, hb'', hvalues'⟩ := ih hinserted.multiOk
      refine ⟨b'', ?_, hb'', ?_⟩
      · rw [List.foldlM_cons, insertMultiHint_end hb, hinsert]
        exact hrange
      · rw [hvalues', hvalues]
        rfl

end Insert

/-! ## Erasing -/

/-- The values before an iterator; without a tree there are none. -/
def beforeOf (position : Option (Iterator α)) : List α := position.elim [] Iterator.before

/-- The values from an iterator on. -/
def restOf (position : Option (Iterator α)) : List α := position.elim [] Iterator.rest

section Erase

variable {P : BtreeParams κ α} {b : Btree α}

theorem ValidIn.values_eq {position : Option (Iterator α)} (hposition : b.ValidIn position) :
    b.values = beforeOf position ++ restOf position := by
  obtain ⟨hmap, -⟩ := hposition
  cases position with
  | none =>
      rw [values_of_none hmap.symm]
      rfl
  | some it =>
      rw [values_of_root (show b.root = some it.tree from hmap.symm), Iterator.inorder_tree]
      rfl

/-- A tree without a root has one iterator, the null one. -/
theorem validIn_none (hroot : b.root = none) : b.ValidIn none :=
  ⟨hroot.symm, fun it hit => absurd hit (Option.not_mem_none it)⟩

theorem validIn_some {it : Iterator α} (hroot : b.root = some it.tree) (hvalid : it.Valid) :
    b.ValidIn (some it) := by
  refine ⟨hroot.symm, fun it' hit => ?_⟩
  obtain rfl := Option.some.inj hit
  exact hvalid

theorem MultiOk.of_sublist {b' : Btree α} (hb : MultiOk P b) (hok : b'.Ok P)
    (hsub : b'.values.Sublist b.values) : MultiOk P b' :=
  ⟨hok, List.Pairwise.sublist hsub hb.ordered⟩

/-- One erasure of the loop: what is before the iterator stays, the value at it goes. -/
theorem erase_step {it : Iterator α} (hb : MultiOk P b) (hposition : b.ValidIn (some it))
    (hrest : it.rest ≠ []) :
    ∃ b' res, erase P b it = some (b', res) ∧ MultiOk P b' ∧ b'.ValidIn res ∧
      beforeOf res = it.before ∧ restOf res = it.rest.tail := by
  have hwhole := hposition.values_eq
  obtain ⟨hmap, hvalid⟩ := hposition
  obtain ⟨w, tail, htail⟩ := List.exists_cons_of_ne_nil hrest
  have hw := (hvalid it rfl).normal.value? htail
  obtain ⟨b', res, herase, hok, hvalues, hres⟩ := erase_spec hb.ok hb.ordered hmap.symm hw
  have hb' : MultiOk P b' := by
    refine hb.of_sublist hok ?_
    rw [hvalues, hwhole]
    exact (List.Sublist.refl _).append (List.tail_sublist _)
  refine ⟨b', res, herase, hb', ?_⟩
  cases res with
  | none =>
      have hnil : it.before ++ it.rest.tail = [] := hvalues.symm.trans (values_of_none hres)
      obtain ⟨hnil, hnil'⟩ := List.append_eq_nil_iff.mp hnil
      rw [hnil, hnil']
      exact ⟨validIn_none hres, rfl, rfl⟩
  | some it' =>
      obtain ⟨hroot', hbefore', hrest', hvalid'⟩ := hres
      exact ⟨validIn_some hroot' hvalid', hbefore', hrest'⟩

/-- **An insertion is undone by erasing at the iterator it returned**, wherever the hint had it put
the value: the values are those from before, and the iterator that comes back stands where the value
has been. -/
theorem insertMultiHint_erase {position : Option (Iterator α)} (hb : MultiOk P b)
    (hposition : b.ValidIn position) (v : α) :
    ∃ b' it b'' res, insertMultiHint P b position v = some (b', some it) ∧
      erase P b' it = some (b'', res) ∧ MultiOk P b'' ∧ b''.values = b.values ∧
      b''.ValidIn res ∧ beforeOf res = it.before := by
  obtain ⟨b', it, hinsert, hinserted, -⟩ := insertMultiHint_spec hb hposition v
  obtain ⟨tail, htail⟩ := Iterator.rest_of_value? hinserted.value
  have hvalid := validIn_some hinserted.root (Or.inl (Iterator.Pointing.of_value? hinserted.value))
  have hne : it.rest ≠ [] := by
    rw [htail]
    exact List.cons_ne_nil v tail
  obtain ⟨b'', res, herase, hb'', hres, hbefore, hrest⟩ := erase_step hinserted.multiOk hvalid hne
  refine ⟨b', it, b'', res, hinsert, herase, hb'', ?_, hres, hbefore⟩
  rw [hres.values_eq, hbefore, hrest, hinserted.old]

theorem insertMultiHint_erase_small :
    ∃ b' it b'' res, insertMultiHint smallSet smallBtree smallBtree.end_ 4 = some (b', some it) ∧
      erase smallSet b' it = some (b'', res) ∧ MultiOk smallSet b'' ∧
      b''.values = smallBtree.values ∧ b''.ValidIn res ∧ beforeOf res = it.before :=
  insertMultiHint_erase smallBtree_uniqueOk.multiOk (end_validIn smallBtree) 4

/-- **An erasure is undone by inserting at the iterator it returned**: the hint is in order there,
so among values with equal keys the value comes back to its place. -/
theorem erase_insertMultiHint {it : Iterator α} {v : α} (hb : MultiOk P b)
    (hroot : b.root = some it.tree) (hv : it.value? = some v) :
    ∃ b' res b'' it', erase P b it = some (b', res) ∧
      insertMultiHint P b' res v = some (b'', some it') ∧ MultiOk P b'' ∧
      b''.values = b.values := by
  obtain ⟨tail, htail⟩ := Iterator.rest_of_value? hv
  have hposition := validIn_some hroot (Or.inl (Iterator.Pointing.of_value? hv))
  have hwhole : b.values = it.before ++ v :: tail := by
    rw [values_of_root hroot, Iterator.inorder_tree, htail]
  obtain ⟨b', res, herase, hb', hres, hbefore, hrest⟩ := erase_step hb hposition
    (by rw [htail]; exact List.cons_ne_nil v tail)
  rw [htail, List.tail_cons] at hrest
  obtain ⟨b'', it', hinsert, hinserted, hvalues⟩ := insertMultiHint_spec hb' hres v
  refine ⟨b', res, b'', it', herase, hinsert, hinserted.multiOk, ?_⟩
  have hrank : (res.elim 0 fun hint => hint.before.length) = it.before.length := by
    rw [← hbefore]
    cases res <;> rfl
  -- the values around the place are those that were around the value
  have hord := hb.ordered
  unfold StrictWeakOrder.Ordered at hord
  rw [hwhole, List.pairwise_append, List.pairwise_cons] at hord
  obtain ⟨-, ⟨hafter, -⟩, hacross⟩ := hord
  have hin : P.order.InOrderAt P.key it.before.length v (it.before ++ tail) :=
    inOrderAt_iff.mpr ⟨fun x hx => hacross x hx v List.mem_cons_self, hafter⟩
  unfold StrictWeakOrder.insertHinted at hvalues
  rw [hvalues, hrank, hres.values_eq, hbefore, hrest, if_pos hin, List.take_left, List.drop_left,
    hwhole]

theorem erase_insertMultiHint_small :
    ∃ b' res b'' it', erase smallSet smallBtree smallTree.begin = some (b', res) ∧
      insertMultiHint smallSet b' res 1 = some (b'', some it') ∧ MultiOk smallSet b'' ∧
      b''.values = smallBtree.values := by
  have hroot : smallBtree.root = some smallTree.begin.tree := rfl
  exact erase_insertMultiHint smallBtree_uniqueOk.multiOk hroot rfl

/-- The loop of `erase(begin, end)` takes out as many values as it has turns. -/
theorem eraseTimes_spec {position : Option (Iterator α)} (hb : MultiOk P b)
    (hposition : b.ValidIn position) {n : ℕ} (hn : n ≤ (restOf position).length) :
    ∃ b' res, eraseTimes P n b position = some (b', res) ∧ MultiOk P b' ∧ b'.ValidIn res ∧
      beforeOf res = beforeOf position ∧ restOf res = (restOf position).drop n := by
  induction n generalizing b position with
  | zero => exact ⟨b, position, by cases position <;> rfl, hb, hposition, rfl, rfl⟩
  | succ n ih =>
      cases position with
      | none => exact absurd hn (Nat.not_succ_le_zero n)
      | some it =>
          have hrest : it.rest ≠ [] := List.ne_nil_of_length_pos (Nat.lt_of_lt_of_le n.succ_pos hn)
          obtain ⟨b₁, res₁, herase, hb₁, hres₁, hbefore₁, hrest₁⟩ := erase_step hb hposition hrest
          have hn₁ : n ≤ (restOf res₁).length := by
            rw [hrest₁, List.length_tail]
            exact Nat.le_sub_one_of_lt hn
          obtain ⟨b', res, htimes, hb', hres, hbefore, hdrop⟩ := ih hb₁ hres₁ hn₁
          refine ⟨b', res, ?_, hb', hres, hbefore.trans hbefore₁, ?_⟩
          · show (erase P b it).bind _ = _
            rw [herase]
            exact htimes
          · rw [hdrop, hrest₁, List.drop_tail]
            rfl

/-- Two iterators of a tree are both null, or into the same nodes. -/
theorem validIn_cases {first last : Option (Iterator α)} (hfirst : b.ValidIn first)
    (hlast : b.ValidIn last) :
    (first = none ∧ last = none) ∨ ∃ f l, first = some f ∧ last = some l ∧ b.root = some f.tree ∧
      f.tree = l.tree ∧ f.Valid ∧ l.Valid := by
  obtain ⟨hmap, hvalid⟩ := hfirst
  obtain ⟨hmap', hvalid'⟩ := hlast
  have hsame := hmap.trans hmap'.symm
  cases first with
  | none =>
      cases last with
      | none => exact Or.inl ⟨rfl, rfl⟩
      | some l => exact absurd hsame nofun
  | some f =>
      cases last with
      | none => exact absurd hsame nofun
      | some l =>
          exact Or.inr ⟨f, l, rfl, rfl, hmap.symm, Option.some.inj hsame, hvalid f rfl,
            hvalid' l rfl⟩

/-- A place of a tree has one iterator. -/
theorem ValidIn.eq_of_rank {first last : Option (Iterator α)} (hok : b.Ok P)
    (hfirst : b.ValidIn first) (hlast : b.ValidIn last)
    (hrank : (beforeOf first).length = (beforeOf last).length) :
    first = last := by
  rcases validIn_cases hfirst hlast with ⟨rfl, rfl⟩ | ⟨f, l, rfl, rfl, hroot, htree, hf, hl⟩
  · rfl
  · exact congrArg some (Iterator.Valid.eq_of_rank (hok.root _ hroot) htree hf hl hrank)

/-- The count of the values between two iterators. -/
theorem distanceIn_spec {first last : Option (Iterator α)} (hok : b.Ok P) (hfirst : b.ValidIn first)
    (hlast : b.ValidIn last) {n : ℕ} (hn : (beforeOf first).length + n = (beforeOf last).length) :
    distanceIn b first last = some n := by
  have hwhole := hlast.values_eq
  rcases validIn_cases hfirst hlast with ⟨rfl, rfl⟩ | ⟨f, l, rfl, rfl, hroot, htree, hf, hl⟩
  · have : n = 0 := (Nat.zero_add n).symm.trans hn
    rw [this]
    rfl
  · refine distance_spec (hok.root _ hroot) htree hf hl hn ?_
    have hle : n ≤ (beforeOf (some l)).length := by omega
    rw [size_eq hok, hwhole, List.length_append]
    exact hle.trans (Nat.le_add_right _ _)

/-- **Erasing from one iterator to another** takes out the values between them, and says how many
these are. -/
theorem eraseRange_spec {first last : Option (Iterator α)} (hb : MultiOk P b)
    (hfirst : b.ValidIn first) (hlast : b.ValidIn last) {m : List α}
    (hm : beforeOf last = beforeOf first ++ m) :
    ∃ b', eraseRange P b first last = some (b', m.length) ∧ MultiOk P b' ∧
      b'.values = beforeOf first ++ restOf last := by
  have hcount : distanceIn b first last = some m.length := by
    refine distanceIn_spec hb.ok hfirst hlast ?_
    rw [hm, List.length_append]
  have hrest : restOf first = m ++ restOf last := by
    have hwhole := hfirst.values_eq.symm.trans hlast.values_eq
    rw [hm, List.append_assoc] at hwhole
    exact List.append_cancel_left hwhole
  have hle : m.length ≤ (restOf first).length := by
    rw [hrest, List.length_append]
    exact Nat.le_add_right _ _
  obtain ⟨b', res, htimes, hb', hres, hbefore, hdrop⟩ := eraseTimes_spec hb hfirst hle
  refine ⟨b', ?_, hb', ?_⟩
  · unfold eraseRange
    rw [hcount, Option.bind_some, htimes]
    rfl
  · rw [hres.values_eq, hbefore, hdrop, hrest, List.drop_left]

/-! ## The values under a key -/

/-- `lower_bound(key)` of the whole tree. -/
theorem lowerBoundIn_spec (hb : MultiOk P b) (k : κ) :
    b.ValidIn (lowerBoundIn P b k) ∧
      IsCut (P.order.below P.key k) (beforeOf (lowerBoundIn P b k))
        (restOf (lowerBoundIn P b k)) := by
  unfold lowerBoundIn
  cases hroot : b.root with
  | none => exact ⟨validIn_none hroot, nofun, nofun⟩
  | some t =>
      have hord := hb.ordered
      rw [values_of_root hroot] at hord
      obtain ⟨⟨htree, hcut⟩, hvalid⟩ := lowerBound_cut (hb.ok.root _ hroot) hord k
      exact ⟨validIn_some (by rw [htree]; exact hroot) hvalid, hcut⟩

/-- `upper_bound(key)` of the whole tree. -/
theorem upperBoundIn_spec (hb : MultiOk P b) (k : κ) :
    b.ValidIn (upperBoundIn P b k) ∧
      IsCut (P.order.upTo P.key k) (beforeOf (upperBoundIn P b k))
        (restOf (upperBoundIn P b k)) := by
  unfold upperBoundIn
  cases hroot : b.root with
  | none => exact ⟨validIn_none hroot, nofun, nofun⟩
  | some t =>
      have hord := hb.ordered
      rw [values_of_root hroot] at hord
      obtain ⟨⟨htree, hcut⟩, hvalid⟩ := upperBound_cut (hb.ok.root _ hroot) hord k
      exact ⟨validIn_some (by rw [htree]; exact hroot) hvalid, hcut⟩

/-- **Between the two bounds of a key are the values under it**, and around them all others. -/
theorem equalRange_spec (hb : MultiOk P b) (k : κ) :
    b.ValidIn (equalRange P b k).1 ∧ b.ValidIn (equalRange P b k).2 ∧
      beforeOf (equalRange P b k).2
        = beforeOf (equalRange P b k).1 ++ P.order.bucket P.key k b.values ∧
      P.order.eraseKey P.key k b.values
        = beforeOf (equalRange P b k).1 ++ restOf (equalRange P b k).2 := by
  obtain ⟨hlow, hbelow⟩ := lowerBoundIn_spec hb k
  obtain ⟨hupp, hupTo⟩ := upperBoundIn_spec hb k
  have hwhole := hlow.values_eq
  obtain ⟨m, hm, hr⟩ := StrictWeakOrder.cuts_split hbelow hupTo (hwhole.symm.trans hupp.values_eq)
  rw [hr] at hbelow
  rw [hm] at hupTo
  obtain ⟨hbucket, herased⟩ := StrictWeakOrder.eraseKey_of_cuts hbelow hupTo
  rw [hr] at hwhole
  refine ⟨hlow, hupp, ?_, ?_⟩
  · rw [hwhole, hbucket]
    exact hm
  · rw [hwhole]
    exact herased

/-- **`count_multi`** counts the values under the key. -/
theorem countMulti_spec (hb : MultiOk P b) (k : κ) :
    countMulti P b k = some (P.order.bucket P.key k b.values).length := by
  obtain ⟨hlow, hupp, hm, -⟩ := equalRange_spec hb k
  refine distanceIn_spec hb.ok hlow hupp ?_
  rw [hm, List.length_append]

/-- **`erase_multi`** takes out the values under the key and says how many these were. -/
theorem eraseMulti_spec (hb : MultiOk P b) (k : κ) :
    ∃ b', eraseMulti P b k = some (b', (P.order.bucket P.key k b.values).length) ∧ MultiOk P b' ∧
      b'.values = P.order.eraseKey P.key k b.values := by
  obtain ⟨hlow, hupp, hm, herased⟩ := equalRange_spec hb k
  obtain ⟨b', herase, hb', hvalues⟩ := eraseRange_spec hb hlow hupp hm
  rw [← herased] at hvalues
  unfold eraseMulti
  cases hroot : b.root with
  | none =>
      have hnil : b.values = [] := values_of_none hroot
      rw [hnil]
      exact ⟨b, rfl, hb, hnil⟩
  | some t =>
      unfold equalRange lowerBoundIn upperBoundIn lowerBound upperBound at herase
      rw [hroot, Option.map_some, Option.map_some] at herase
      cases hfirst : internalLowerBound P k t with
      | none =>
          have hall : ∀ x ∈ b.values, ¬P.order.Equivalent (P.key x) k := by
            obtain ⟨-, hcut⟩ := lowerBoundIn_spec hb k
            unfold lowerBoundIn lowerBound at hcut
            rw [hroot, Option.map_some, hfirst] at hcut
            rw [values_of_root hroot]
            refine not_equivalent_of_below fun x hx => hcut.holds x ?_
            show x ∈ t.end_.before
            rwa [(end_spec t).2.1]
          rw [StrictWeakOrder.bucket_eq_nil.mpr hall]
          exact ⟨b, by simp only [hfirst, List.length_nil], hb,
            (StrictWeakOrder.eraseKey_eq_self hall).symm⟩
      | some first =>
          rw [hfirst] at herase
          exact ⟨b', by simp only [hfirst]; exact herase, hb', hvalues⟩

end Erase

/-! ## Whole trees -/

section Whole

variable {P : BtreeParams κ α} {b x : Btree α}

/-- A value that no value of the tree is greater than comes last. -/
theorem assignValue_spec {v : α} (hb : MultiOk P b)
    (hlast : ∀ w ∈ b.values, P.order.lt (P.key v) (P.key w) = false) :
    ∃ b', assignValue P b v = some b' ∧ MultiOk P b' ∧ b'.values = b.values ++ [v] := by
  unfold assignValue
  cases hroot : b.root with
  | none =>
      obtain ⟨b', it, hinsert, hinserted, hvalues⟩ := insertMulti_spec hb v
      have hnil : b.values = [] := values_of_none hroot
      refine ⟨b', ?_, hinserted.multiOk, ?_⟩
      · simp only [hinsert, Option.map_some]
      · rw [hvalues, hnil]
        rfl
  | some t =>
      obtain ⟨htree, hbefore, hrest, -⟩ := end_spec t
      have hwhole : b.values = t.end_.before := by rw [values_of_root hroot, hbefore]
      obtain ⟨b', it, hinsert, hinserted, hnew⟩ := insert_between hb
        (hroot.trans (congrArg some htree.symm)) (end_valid t).position_le
        (by rw [← hwhole]; exact hlast)
        (by rw [hrest]; exact fun y hy => absurd hy List.not_mem_nil)
      refine ⟨b', ?_, hinserted.multiOk, ?_⟩
      · simp only [hinsert, Option.map_some]
      · rw [hnew, hrest, hwhole]

/-- The loop of `assign`: the tree has the values before the iterator. -/
theorem assignFrom_spec (fuel : ℕ) (it : Iterator α) (hx : MultiOk P x)
    (hroot : x.root = some it.tree) (hvalid : it.Valid) (hb : MultiOk P b)
    (hvalues : b.values = it.before) (hfuel : it.rest.length ≤ fuel) :
    ∃ b', assignFrom P fuel it it.tree.end_ b = some b' ∧ MultiOk P b' ∧ b'.values = x.values := by
  have hok := hx.ok.root _ hroot
  have hwhole : x.values = it.before ++ it.rest := by
    rw [values_of_root hroot, Iterator.inorder_tree]
  induction fuel generalizing it b with
  | zero =>
      have hnil := List.eq_nil_of_length_eq_zero (Nat.le_zero.mp hfuel)
      refine ⟨b, if_pos ((same_end_iff hok hvalid).mpr hnil), hb, ?_⟩
      rw [hvalues, hwhole, hnil, List.append_nil]
  | succ fuel ih =>
      by_cases hend : it.same it.tree.end_ = true
      · refine ⟨b, if_pos hend, hb, ?_⟩
        rw [hvalues, hwhole, (same_end_iff hok hvalid).mp hend, List.append_nil]
      · have hne : it.rest ≠ [] := fun hnil => hend ((same_end_iff hok hvalid).mpr hnil)
        obtain ⟨v, tail, hrest⟩ := List.exists_cons_of_ne_nil hne
        have hv := hvalid.normal.value? hrest
        obtain ⟨htree, hb', hr'⟩ := increment_spec hv
        -- the next value comes after all that have been copied, so it goes to the end
        have hlast : ∀ w ∈ b.values, P.order.lt (P.key v) (P.key w) = false := by
          intro w hw
          have hord := hx.ordered
          rw [hwhole, hrest] at hord
          rw [hvalues] at hw
          exact (List.pairwise_append.mp hord).2.2 w hw v List.mem_cons_self
        obtain ⟨b₁, hassign, hb₁, hvalues₁⟩ := assignValue_spec hb hlast
        obtain ⟨b₂, hfrom, hb₂, hvalues₂⟩ := ih (increment it) (by rw [htree]; exact hroot)
          (increment_valid hok (Iterator.Pointing.of_value? hv)) hb₁
          (by rw [hvalues₁, hvalues, hb'])
          (by rw [hr', List.length_cons] at hfuel; exact Nat.le_of_succ_le_succ hfuel)
          (by rw [htree]; exact hok)
          (by rw [hwhole, hb', hr', List.append_assoc, List.singleton_append])
        refine ⟨b₂, ?_, hb₂, hvalues₂⟩
        unfold assignFrom
        simp only [if_neg hend, hv, Option.bind_some, hassign]
        rwa [htree] at hfrom

/-- **A copy has the values of what it was copied from**, in their order, in a tree of its own that
keeps the invariant. -/
theorem assign_spec (hx : MultiOk P x) :
    ∃ b', assign P x = some b' ∧ MultiOk P b' ∧ b'.values = x.values := by
  unfold assign
  cases hroot : x.root with
  | none =>
      refine ⟨empty, rfl, multiOk_empty P, ?_⟩
      rw [values_of_none hroot]
      rfl
  | some t =>
      have hok := hx.ok.root _ hroot
      obtain ⟨htree, hbefore, hrest, -⟩ := begin_spec hok
      have hassign := assignFrom_spec x.size t.begin hx
        (hroot.trans (congrArg some htree.symm)) (begin_valid hok) (multiOk_empty P) hbefore.symm
        (by rw [hrest, size_eq hx.ok, values_of_root hroot])
      rwa [htree] at hassign

variable [DecidableEq α]

/-- The loop of `==` compares what is left of the two trees. -/
theorem equalFrom_spec (fuel : ℕ) (it xit : Iterator α) (hok : RootOk P.kNodeValues it.tree)
    (hxok : RootOk P.kNodeValues xit.tree) (hvalid : it.Valid) (hxvalid : xit.Valid)
    (hlen : it.rest.length = xit.rest.length) (hfuel : it.rest.length ≤ fuel) :
    equalFrom fuel it it.tree.end_ xit = some (decide (it.rest = xit.rest)) := by
  induction fuel generalizing it xit with
  | zero =>
      have hnil := List.eq_nil_of_length_eq_zero (Nat.le_zero.mp hfuel)
      have hnil' := List.eq_nil_of_length_eq_zero (hlen.symm.trans (Nat.le_zero.mp hfuel))
      unfold equalFrom
      rw [if_pos ((same_end_iff hok hvalid).mpr hnil), hnil, hnil']
      rfl
  | succ fuel ih =>
      unfold equalFrom
      by_cases hend : it.same it.tree.end_ = true
      · have hnil := (same_end_iff hok hvalid).mp hend
        rw [hnil, List.length_nil] at hlen
        rw [if_pos hend, hnil, List.eq_nil_of_length_eq_zero hlen.symm]
        rfl
      · rw [if_neg hend]
        have hne : it.rest ≠ [] := fun hnil => hend ((same_end_iff hok hvalid).mpr hnil)
        obtain ⟨v, tail, hrest⟩ := List.exists_cons_of_ne_nil hne
        rw [hrest] at hlen
        obtain ⟨w, tail', hrest'⟩ := List.exists_cons_of_length_eq_add_one hlen.symm
        have hv := hvalid.normal.value? hrest
        have hw := hxvalid.normal.value? hrest'
        obtain ⟨htree, -, hr⟩ := increment_spec hv
        obtain ⟨hxtree, -, hxr⟩ := increment_spec hw
        simp only [hv, hw, Option.bind_some]
        rw [hr, hxr]
        by_cases hvw : v = w
        · have hnext := ih (increment it) (increment xit) (by rw [htree]; exact hok)
            (by rw [hxtree]; exact hxok) (increment_valid hok (Iterator.Pointing.of_value? hv))
            (increment_valid hxok (Iterator.Pointing.of_value? hw))
            (by
              rw [← hrest, hr, hrest', ← hrest', hxr, List.length_cons, List.length_cons] at hlen
              exact Nat.succ.inj hlen)
            (by rw [hr, List.length_cons] at hfuel; exact Nat.le_of_succ_le_succ hfuel)
          rw [if_pos hvw, ← htree, hnext, hvw]
          simp only [List.cons.injEq, true_and]
        · rw [if_neg hvw]
          simp only [List.cons.injEq, hvw, false_and, decide_false]

/-- **`==` of two trees compares their values**, however these are spread over the nodes. -/
theorem containerEq_spec (hb : b.Ok P) (hx : x.Ok P) :
    containerEq b x = some (decide (b.values = x.values)) := by
  unfold containerEq
  rw [size_eq hb, size_eq hx]
  by_cases hlen : b.values.length = x.values.length
  · rw [if_pos hlen]
    cases hroot : b.root with
    | none =>
        have hnil : b.values = [] := values_of_none hroot
        rw [hnil, List.length_nil] at hlen
        rw [hnil, List.eq_nil_of_length_eq_zero hlen.symm]
        rfl
    | some t =>
        have hok := hb.root _ hroot
        obtain ⟨htree, -, hrest, -⟩ := begin_spec hok
        cases hxroot : x.root with
        | none =>
            have hnil : x.values = [] := values_of_none hxroot
            have hpos := inorder_pos hok
            rw [← values_of_root hroot, hlen, hnil] at hpos
            exact absurd hpos (Nat.lt_irrefl 0)
        | some tx =>
            have hxok := hx.root _ hxroot
            obtain ⟨hxtree, -, hxrest, -⟩ := begin_spec hxok
            have hequal := equalFrom_spec b.values.length t.begin tx.begin
              (by rw [htree]; exact hok) (by rw [hxtree]; exact hxok) (begin_valid hok)
              (begin_valid hxok)
              (by rw [hrest, hxrest, ← values_of_root hroot, ← values_of_root hxroot]; exact hlen)
              (by rw [hrest, ← values_of_root hroot])
            rw [htree, hrest, hxrest, ← values_of_root hroot, ← values_of_root hxroot] at hequal
            exact hequal
  · rw [if_neg hlen, decide_eq_false fun heq => hlen (congrArg List.length heq)]

/-- The numbers of `smallBtree` in other leaves. -/
def regroupedBtree : Btree ℤ := ⟨some regroupedTree, 8⟩

theorem regroupedBtree_ok : regroupedBtree.Ok smallSet := by
  constructor
  · rintro t ⟨⟩
    exact regroupedTree_ok
  · rintro t ⟨⟩ -
    rfl

theorem containerEq_small : containerEq smallBtree regroupedBtree
    = some (decide (smallBtree.values = regroupedBtree.values)) :=
  containerEq_spec smallBtree_ok regroupedBtree_ok

end Whole

end Btree
