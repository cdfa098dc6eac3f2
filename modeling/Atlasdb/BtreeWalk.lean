/-
# Iterators as places (`storage/btree/btree.h`, `btree.tcc`)

An iterator that points at a value, or is the end, is determined by how many values are before
it: no two nodes and positions of a tree stand for the same place.  So comparing nodes and
positions, which is what the iterators' `==` does, compares places.

* `decrement_increment`, `increment_decrement` : steps forward and back undo each other, node and
  position included;
* `Valid.eq_of_rank` : two iterators into a tree with the same number of values before them are the
  same;
* `Valid.same_iff` : `==` of two iterators into a tree says whether they are at the same place;
* `decrement_eq_some_iff` : a step back is the inverse of a step forward;
* `existsUnique_iterator` : every place has exactly one iterator;
* `distance_spec` : walking from one iterator to a later one takes as many steps as there are values
  between them.
-/
import Atlasdb.BtreeLocate

namespace Btree

variable {α : Type}

/-! ## `==` -/

/-- The positions of a node and of its ancestors in their parents, the nearest first. -/
def Ancestors.path : {h : ℕ} → Ancestors α h → List ℕ
  | _, .root => []
  | _, .child parent up => parent.position :: up.path

/-- `operator==` of two iterators into the same tree: a node is told from the others by the way to
it. -/
def Iterator.same (a b : Iterator α) : Bool :=
  decide (a.up.path = b.up.path) && decide (a.position = b.position)

/-- `std::distance`: the steps from one iterator to another, cut off after `fuel`. -/
def distance : ℕ → Iterator α → Iterator α → Option ℕ
  | 0, first, last => if first.same last then some 0 else none
  | fuel + 1, first, last =>
      if first.same last then some 0 else (distance fuel (increment first) last).map (· + 1)

/-- The height of the tree, from a node with its ancestors. -/
theorem height_eq : {h : ℕ} → (up : Ancestors α h) → (n : Node α h) →
    (up.close n).height = h + up.path.length
  | _, .root, _ => rfl
  | h, .child parent up, n => by
      show (up.close (parent.close n)).height = h + (up.path.length + 1)
      rw [height_eq up (parent.close n)]
      omega

/-- In a tree the way to a node says which node it is. -/
theorem close_injective : {h : ℕ} → (up up' : Ancestors α h) → (n n' : Node α h) →
    up.close n = up'.close n' → up.path = up'.path → up = up' ∧ n = n'
  | h, .root, .root, n, n', hclose, _ => by
      refine ⟨rfl, ?_⟩
      change (⟨h, n⟩ : Tree α) = ⟨h, n'⟩ at hclose
      cases hclose
      rfl
  | _, .root, .child _ _, _, _, _, hpath => absurd hpath (List.cons_ne_nil _ _).symm
  | _, .child _ _, .root, _, _, _, hpath => absurd hpath (List.cons_ne_nil _ _)
  | h, .child parent up, .child parent' up', n, n', hclose, hpath => by
      obtain ⟨hposition, hpath'⟩ := List.cons.inj hpath
      obtain ⟨rfl, hn⟩ :=
        close_injective up up' (parent.close n) (parent'.close n') hclose hpath'
      have hopen : (parent, n) = (parent', n') := by
        rw [← BtreeNode.openAt_close parent n, hn, hposition, BtreeNode.openAt_close]
      obtain ⟨rfl, rfl⟩ := Prod.mk.inj hopen
      exact ⟨rfl, rfl⟩

/-- Iterators into the same tree that compare equal are equal. -/
theorem Iterator.eq_of_same {a b : Iterator α} (htree : a.tree = b.tree) (hsame : a.same b) :
    a = b := by
  obtain ⟨h, n, p, up⟩ := a
  obtain ⟨h', n', p', up'⟩ := b
  unfold Iterator.same at hsame
  rw [Bool.and_eq_true, decide_eq_true_iff, decide_eq_true_iff] at hsame
  obtain ⟨hpath, hposition⟩ := hsame
  change up.path = up'.path at hpath
  change p = p' at hposition
  change up.close n = up'.close n' at htree
  have hheight := height_eq up n
  rw [htree, height_eq up' n', hpath] at hheight
  obtain rfl : h = h' := by omega
  obtain ⟨rfl, rfl⟩ := close_injective up up' n n' htree hpath
  obtain rfl := hposition
  rfl

theorem Iterator.same_self (a : Iterator α) : a.same a = true := by
  unfold Iterator.same
  rw [Bool.and_eq_true, decide_eq_true_iff, decide_eq_true_iff]
  exact ⟨rfl, rfl⟩

/-! ## Leaving and entering leaves -/

section Leaves

theorem internalLast_under {h : ℕ} (n : Node α h) (p : ℕ) (parent : ParentNode α (Child α (h + 1)))
    (up : Ancestors α (h + 1)) :
    internalLast n p (.child parent up) =
      if p = n.count then internalLast (parent.close n) parent.position up
      else some ⟨h, n, p, .child parent up⟩ := rfl

theorem internalFirst_under {h : ℕ} (n : Node α h) (parent : ParentNode α (Child α (h + 1)))
    (up : Ancestors α (h + 1)) :
    internalFirst n 0 (.child parent up) = internalFirst (parent.close n) parent.position up := rfl

/-- Leaving a child at its end. -/
theorem internalLast_child {h : ℕ} (n : Node α (h + 1)) {p : ℕ} (up : Ancestors α (h + 1))
    (hp : p ≤ n.count) :
    internalLast (n.child p) (n.child p).count (.child (n.openAt p).1 up)
      = internalLast n p up := by
  rw [internalLast_under, if_pos rfl, BtreeNode.close_openAt, BtreeNode.position_openAt n hp]

/-- The end of the last leaf below a node is left as the end of the node is. -/
theorem internalLast_rightmost : (h : ℕ) → (n : Node α h) → (up : Ancestors α h) →
    (rightmost h n up).internalLast = internalLast n n.count up
  | 0, _, _ => rfl
  | h + 1, n, up => by
      refine (internalLast_rightmost h (n.child n.count) (.child (n.openAt n.count).1 up)).trans ?_
      exact internalLast_child n up (Nat.le_refl _)

/-- A step back from where the end of a node is left leads to the last value below the node. -/
theorem decrement_internalLast : {h : ℕ} → (n : Node α h) → (up : Ancestors α h) →
    {it : Iterator α} → internalLast n n.count up = some it →
    decrement it = some { rightmost h n up with position := (rightmost h n up).position - 1 }
  | _, n, .root, it, hit => by
      unfold internalLast at hit
      rw [if_pos rfl] at hit
      cases hit
  | h, n, .child parent up, it, hit => by
      rw [internalLast_under, if_pos rfl] at hit
      have hopen := BtreeNode.openAt_close parent n
      have hchild : (parent.close n).child parent.position = n := BtreeNode.child_close parent n
      by_cases hend : parent.position = (parent.close n).count
      · rw [hend] at hit
        have hstep := decrement_internalLast (parent.close n) up hit
        unfold rightmost at hstep
        rw [← hend, hchild, hopen] at hstep
        exact hstep
      · have hit' : it = ⟨h + 1, parent.close n, parent.position, up⟩ := by
          cases up <;>
          · unfold internalLast at hit
            rw [if_neg hend] at hit
            exact (Option.some.inj hit).symm
        rw [hit', decrement_internal, hchild, hopen]

/-- Where nothing comes after a node, its last leaf is the last one of the tree. -/
theorem rightmost_of_internalLast_none : {h : ℕ} → (n : Node α h) → (up : Ancestors α h) →
    internalLast n n.count up = none → rightmost h n up = (up.close n).end_
  | _, _, .root, _ => rfl
  | h, n, .child parent up, hnone => by
      rw [internalLast_under, if_pos rfl] at hnone
      have hend : parent.position = (parent.close n).count := by
        by_contra hne
        cases up <;>
        · unfold internalLast at hnone
          rw [if_neg hne] at hnone
          cases hnone
      rw [hend] at hnone
      have hstep := rightmost_of_internalLast_none (parent.close n) up hnone
      have hchild : (parent.close n).child parent.position = n := BtreeNode.child_close parent n
      unfold rightmost at hstep
      rw [← hend, hchild, BtreeNode.openAt_close parent n] at hstep
      exact hstep

/-- A step back from the first value below a node leaves the node at its start. -/
theorem decrement_leftmost : (h : ℕ) → (n : Node α h) → (up : Ancestors α h) →
    decrement (leftmost h n up) = internalFirst n 0 up
  | 0, _, _ => rfl
  | h + 1, n, up => by
      refine (decrement_leftmost h (n.child 0) (.child (n.openAt 0).1 up)).trans ?_
      rw [internalFirst_under, BtreeNode.close_openAt, BtreeNode.position_openAt n (Nat.zero_le _)]

/-- A step forward from where the start of a node is left leads to the first value below the
node. -/
theorem increment_internalFirst : {h : ℕ} → (n : Node α h) → (up : Ancestors α h) →
    {it : Iterator α} → internalFirst n 0 up = some it → increment it = leftmost h n up
  | _, n, .root, it, hit => by
      unfold internalFirst at hit
      cases hit
  | h, n, .child parent up, it, hit => by
      have hopen := BtreeNode.openAt_close parent n
      have hchild : (parent.close n).child parent.position = n := BtreeNode.child_close parent n
      rw [internalFirst_under] at hit
      cases hp : parent.position with
      | zero =>
          rw [hp] at hit hchild hopen
          have hstep := increment_internalFirst (parent.close n) up hit
          unfold leftmost at hstep
          rw [hchild, hopen] at hstep
          exact hstep
      | succ p =>
          rw [hp] at hit hchild hopen
          have hit' : it = ⟨h + 1, parent.close n, p, up⟩ := by
            cases up <;> exact (Option.some.inj hit).symm
          rw [hit', increment_internal, hchild, hopen]

/-- Where nothing comes before a node, its first leaf is the first one of the tree. -/
theorem leftmost_of_internalFirst_none : {h : ℕ} → (n : Node α h) → (up : Ancestors α h) →
    internalFirst n 0 up = none → leftmost h n up = (up.close n).begin
  | _, _, .root, _ => rfl
  | h, n, .child parent up, hnone => by
      have hchild : (parent.close n).child parent.position = n := BtreeNode.child_close parent n
      have hopen := BtreeNode.openAt_close parent n
      rw [internalFirst_under] at hnone
      cases hp : parent.position with
      | zero =>
          rw [hp] at hnone hchild hopen
          have hstep := leftmost_of_internalFirst_none (parent.close n) up hnone
          unfold leftmost at hstep
          rw [hchild, hopen] at hstep
          exact hstep
      | succ p =>
          rw [hp] at hnone
          cases up <;> cases hnone

end Leaves

/-! ## Steps forward and back -/

section Steps

variable {K : ℕ}

theorem incrementSlow_leaf_eq (n : Node α 0) (p : ℕ) (up : Ancestors α 0) :
    incrementSlow ⟨0, n, p, up⟩ = (internalLast n p up).getD ⟨0, n, p, up⟩ := rfl

/-- `++` out of a leaf at its last value. -/
theorem increment_last {n : Node α 0} {p : ℕ} (up : Ancestors α 0) (hp : p + 1 = n.count) :
    increment ⟨0, n, p, up⟩ = (internalLast n n.count up).getD ⟨0, n, n.count, up⟩ := by
  rw [increment_leaf, if_neg (by omega), hp, incrementSlow_leaf_eq]

/-- **A step back undoes a step forward**: it leads to the same node and position. -/
theorem decrement_increment {it : Iterator α} (hp : it.Pointing) :
    decrement (increment it) = some it := by
  obtain ⟨h, n, p, up⟩ := it
  change p < n.count at hp
  cases h with
  | zero =>
      by_cases hin : p + 1 < n.count
      · rw [increment_leaf, if_pos hin]
        rfl
      · have hlast : p + 1 = n.count := by omega
        rw [increment_last up hlast]
        cases hit : internalLast n n.count up with
        | none =>
            rw [Option.getD_none, ← hlast]
            rfl
        | some it =>
            rw [Option.getD_some, decrement_internalLast n up hit]
            show some (⟨0, n, n.count - 1, up⟩ : Iterator α) = _
            rw [← hlast, Nat.add_sub_cancel]
  | succ h =>
      rw [increment_internal, decrement_leftmost, internalFirst_under, BtreeNode.close_openAt,
        BtreeNode.position_openAt n (Nat.succ_le_of_lt hp)]
      cases up <;> rfl

/-- **A step forward undoes a step back.** -/
theorem increment_decrement {it it' : Iterator α} (hok : RootOk K it.tree) (hp : it.Pointing)
    (hit : decrement it = some it') : increment it' = it := by
  obtain ⟨h, n, p, up⟩ := it
  change p < n.count at hp
  cases h with
  | zero =>
      cases p with
      | zero => exact increment_internalFirst n up hit
      | succ p =>
          obtain rfl := Option.some.inj hit
          rw [increment_leaf, if_pos hp]
  | succ h =>
      have hchild : NodeOk K (ChildOk K h) (n.child p) :=
        hok.focus.children _ (BtreeNode.child_mem n p)
      have hpos := rightmost_pos h (n.child p) (.child (n.openAt p).1 up) hchild.pos hchild.children
      have hlast := internalLast_rightmost h (n.child p) (.child (n.openAt p).1 up)
      obtain ⟨-, -, -, hzero, hcount⟩ :=
        rightmost_spec h (n.child p) (.child (n.openAt p).1 up)
      rw [internalLast_child n up (Nat.le_of_lt hp)] at hlast
      have hhere : internalLast n p up = some ⟨h + 1, n, p, up⟩ := by
        cases up with
        | root => exact if_neg (Nat.ne_of_lt hp)
        | child parent up => exact if_neg (Nat.ne_of_lt hp)
      rw [decrement_internal] at hit
      obtain rfl := Option.some.inj hit
      generalize rightmost h (n.child p) (.child (n.openAt p).1 up) = last at *
      obtain ⟨h', leaf, q, up'⟩ := last
      obtain rfl : h' = 0 := hzero
      obtain rfl : q = leaf.count := hcount
      have hback : leaf.count - 1 + 1 = leaf.count := Nat.sub_add_cancel hpos
      rw [increment_last up' hback]
      change internalLast leaf leaf.count up' = _ at hlast
      rw [hlast, hhere]
      rfl

/-- A step forward leads to the next value or to the end. -/
theorem increment_valid {it : Iterator α} (hok : RootOk K it.tree) (hp : it.Pointing) :
    (increment it).Valid := by
  obtain ⟨h, n, p, up⟩ := it
  have hfocus : FocusOk K n up := hok.focus
  change p < n.count at hp
  cases h with
  | zero =>
      by_cases hin : p + 1 < n.count
      · rw [increment_leaf, if_pos hin]
        exact Or.inl hin
      · have hlast : p + 1 = n.count := by omega
        have hspec := internalLast_spec n n.count up (Nat.le_refl _)
        rw [increment_last up hlast]
        cases hit : internalLast n n.count up with
        | none => exact Or.inr (rightmost_of_internalLast_none n up hit)
        | some it =>
            rw [hit] at hspec
            exact Or.inl hspec.2.1
  | succ h =>
      have hchild : NodeOk K (ChildOk K h) (n.child (p + 1)) :=
        hfocus.children _ (BtreeNode.child_mem n (p + 1))
      rw [increment_internal]
      exact Or.inl (leftmost_pointing h _ _ hchild.pos hchild.children)

/-- Where there is no step back from a value, it is the first one of the tree. -/
theorem eq_begin_of_decrement_none {it : Iterator α} (hnone : decrement it = none) :
    it = it.tree.begin := by
  obtain ⟨h, n, p, up⟩ := it
  cases h with
  | zero =>
      cases p with
      | zero => exact leftmost_of_internalFirst_none n up hnone
      | succ p => cases hnone
  | succ h =>
      rw [decrement_internal] at hnone
      cases hnone

/-- **Every value is reached by steps forward from the first one**, by as many as there are values
before it. -/
theorem eq_iterate_begin {it : Iterator α} (hok : RootOk K it.tree) (hp : it.Pointing) :
    it = increment^[it.before.length] it.tree.begin := by
  obtain ⟨j, hj⟩ : ∃ j, it.before.length = j := ⟨_, rfl⟩
  induction j generalizing it with
  | zero =>
      rw [hj]
      have hspec := decrement_spec hok (Nat.le_of_lt hp)
      cases hit : decrement it with
      | none => exact eq_begin_of_decrement_none hit
      | some it' =>
          rw [hit] at hspec
          obtain ⟨-, v, -, hb, -⟩ := hspec
          rw [hb, List.length_append, List.length_singleton] at hj
          exact absurd hj (Nat.succ_ne_zero _)
  | succ j ih =>
      have hspec := decrement_spec hok (Nat.le_of_lt hp)
      cases hit : decrement it with
      | none =>
          rw [hit] at hspec
          rw [hspec] at hj
          exact absurd hj.symm (Nat.succ_ne_zero _)
      | some it' =>
          rw [hit] at hspec
          obtain ⟨htree, v, hv, hb, -⟩ := hspec
          rw [hb, List.length_append, List.length_singleton] at hj
          have hprev := ih (by rw [htree]; exact hok) (Iterator.Pointing.of_value? hv)
            (Nat.succ.inj hj)
          rw [hb, List.length_append, List.length_singleton, Function.iterate_succ_apply', ← htree,
            ← hprev, increment_decrement hok hp hit]

theorem Iterator.Pointing.rank_lt {it : Iterator α} (hp : it.Pointing) :
    it.before.length < it.tree.inorder.length := by
  obtain ⟨v, c, -, hv⟩ := hp.entry
  obtain ⟨tail, hrest⟩ := Iterator.rest_of_value? hv
  rw [it.inorder_tree, hrest, List.length_append, List.length_cons]
  omega

/-- A tree with a root has values. -/
theorem inorder_pos {t : Tree α} (hok : RootOk K t) : 0 < t.inorder.length := by
  have hlt := (leftmost_pointing t.height t.root .root hok.pos hok.children).rank_lt
  rw [(leftmost_spec t.height t.root .root).1] at hlt
  exact Nat.zero_lt_of_lt hlt

/-- The end is where it is by what is before it. -/
theorem Iterator.before_of_end {it : Iterator α} (hend : it = it.tree.end_) :
    it.before = it.tree.inorder := by
  conv_lhs => rw [hend]
  exact (end_spec it.tree).2.1

theorem Iterator.Valid.position_le {it : Iterator α} (hv : it.Valid) :
    it.position ≤ it.node.count := by
  rcases hv with hp | hend
  · exact Nat.le_of_lt hp
  · rw [hend]
    exact (rightmost_spec it.tree.height it.tree.root .root).2.2.2.2.le

theorem Iterator.Valid.of_rest {it : Iterator α} (hv : it.Valid) (hrest : it.rest = []) :
    it = it.tree.end_ := by
  refine hv.resolve_left fun hp => ?_
  obtain ⟨v, c, -, hvalue⟩ := hp.entry
  obtain ⟨tail, htail⟩ := Iterator.rest_of_value? hvalue
  rw [hrest] at htail
  cases htail

theorem begin_valid {t : Tree α} (hok : RootOk K t) : t.begin.Valid :=
  Or.inl (leftmost_pointing _ _ _ hok.pos hok.children)

/-- **A place in the tree is at one node and position only.** -/
theorem Iterator.Valid.eq_of_rank {a b : Iterator α} (hok : RootOk K a.tree)
    (htree : a.tree = b.tree) (ha : a.Valid) (hb : b.Valid)
    (hrank : a.before.length = b.before.length) : a = b := by
  rcases ha with ha | ha
  · rcases hb with hb | hb
    · rw [eq_iterate_begin hok ha, eq_iterate_begin (by rw [← htree]; exact hok) hb, hrank, htree]
    · have hlt := ha.rank_lt
      rw [hrank, htree, Iterator.before_of_end hb] at hlt
      exact absurd hlt (Nat.lt_irrefl _)
  · rcases hb with hb | hb
    · have hlt := hb.rank_lt
      rw [← hrank, ← htree, Iterator.before_of_end ha] at hlt
      exact absurd hlt (Nat.lt_irrefl _)
    · rw [ha, hb, htree]

/-- **`==` of two iterators into a tree says whether they are at the same place.** -/
theorem Iterator.Valid.same_iff {a b : Iterator α} (hok : RootOk K a.tree)
    (htree : a.tree = b.tree) (ha : a.Valid) (hb : b.Valid) :
    a.same b = true ↔ a.before.length = b.before.length := by
  constructor
  · intro hsame
    rw [Iterator.eq_of_same htree hsame]
  · intro hrank
    rw [Iterator.Valid.eq_of_rank hok htree ha hb hrank]
    exact b.same_self

/-- The walk stays on the iterators of the tree. -/
theorem iterate_valid {it : Iterator α} (hok : RootOk K it.tree) (hv : it.Valid) {j : ℕ}
    (hj : j ≤ it.rest.length) : (increment^[j] it).Valid := by
  cases j with
  | zero => exact hv
  | succ j =>
      obtain ⟨htree, -, hrest, hnormal⟩ := iterate_increment hok hv.normal (Nat.le_of_succ_le hj)
      rw [Function.iterate_succ_apply']
      refine increment_valid (by rw [htree]; exact hok) (hnormal ?_)
      rw [hrest]
      exact fun hnil => absurd (List.drop_eq_nil_iff.mp hnil) (Nat.not_le.mpr hj)

/-- **The distance of two iterators is the number of values between them**, and the walk that counts
it ends. -/
theorem distance_spec {first last : Iterator α} (hok : RootOk K first.tree)
    (htree : first.tree = last.tree) (hfirst : first.Valid) (hlast : last.Valid) {n fuel : ℕ}
    (hn : first.before.length + n = last.before.length) (hfuel : n ≤ fuel) :
    distance fuel first last = some n := by
  have hle : last.before.length ≤ first.before.length + first.rest.length := by
    rw [← List.length_append, ← Iterator.inorder_tree, htree, Iterator.inorder_tree,
      List.length_append]
    exact Nat.le_add_right _ _
  induction n generalizing first fuel with
  | zero =>
      have hsame := (Iterator.Valid.same_iff hok htree hfirst hlast).mpr hn
      cases fuel <;> exact if_pos hsame
  | succ n ih =>
      have hsame : ¬first.same last = true := by
        rw [Iterator.Valid.same_iff hok htree hfirst hlast]
        omega
      obtain ⟨fuel, rfl⟩ : ∃ m, fuel = m + 1 := ⟨fuel - 1, by omega⟩
      have hne : first.rest ≠ [] := by
        apply List.ne_nil_of_length_pos
        omega
      obtain ⟨v, c, -, hv⟩ := (hfirst.normal hne).entry
      obtain ⟨htree', hb, hr⟩ := increment_spec hv
      have hlen : (increment first).before.length = first.before.length + 1 := by
        rw [hb, List.length_append, List.length_singleton]
      unfold distance
      rw [if_neg hsame, ih (by rw [htree']; exact hok) (htree'.trans htree)
        (increment_valid hok (Iterator.Pointing.of_value? hv)) (by omega) (by omega) ?_]
      · rfl
      · rw [hr, List.length_cons] at hle
        omega

/-- **A step back is the inverse of a step forward**, on every valid iterator. -/
theorem decrement_eq_some_iff {it it' : Iterator α} (hok : RootOk K it.tree) (hvalid : it.Valid) :
    decrement it = some it' ↔ it'.Pointing ∧ increment it' = it := by
  constructor
  · intro hdec
    have hspec := decrement_spec hok hvalid.position_le
    rw [hdec] at hspec
    obtain ⟨htree, v, hv, hbefore, -⟩ := hspec
    obtain ⟨htree', hbefore', -⟩ := increment_spec hv
    have hp := Iterator.Pointing.of_value? hv
    have hok' : RootOk K it'.tree := by
      rw [htree]
      exact hok
    have hok'' : RootOk K (increment it').tree := by
      rw [htree']
      exact hok'
    refine ⟨hp, Iterator.Valid.eq_of_rank hok'' (htree'.trans htree) (increment_valid hok' hp)
      hvalid ?_⟩
    rw [hbefore', hbefore]
  · rintro ⟨hp, rfl⟩
    exact decrement_increment hp

theorem decrement_eq_some_iff_small :
    decrement smallTree.end_ = some (increment^[7] smallTree.begin) ↔
      (increment^[7] smallTree.begin).Pointing ∧
        increment (increment^[7] smallTree.begin) = smallTree.end_ :=
  decrement_eq_some_iff (show RootOk 3 smallTree.end_.tree from smallTree_ok) (end_valid smallTree)

/-- **Of every place in a tree there is exactly one iterator**: the places are those between two
values, before the first and after the last. -/
theorem existsUnique_iterator {t : Tree α} (hok : RootOk K t) {i : ℕ} (hi : i ≤ t.inorder.length) :
    ∃! it : Iterator α, it.tree = t ∧ it.Valid ∧ it.before.length = i := by
  obtain ⟨hbegin, hbefore, hrest, hnormal⟩ := begin_spec hok
  have hok' : RootOk K t.begin.tree := by
    rw [hbegin]
    exact hok
  have hi' : i ≤ t.begin.rest.length := by
    rw [hrest]
    exact hi
  obtain ⟨htree, hbefore', -, -⟩ := iterate_increment hok' hnormal hi'
  refine ⟨increment^[i] t.begin, ⟨htree.trans hbegin, ?_, ?_⟩, ?_⟩
  · exact iterate_valid hok' (begin_valid hok) hi'
  · rw [hbefore', hbefore, List.nil_append, List.length_take, Nat.min_eq_left hi']
  · rintro it ⟨hit, hvalid, hrank⟩
    have hok'' : RootOk K it.tree := by
      rw [hit]
      exact hok
    apply Iterator.Valid.eq_of_rank hok'' (hit.trans (htree.trans hbegin).symm) hvalid
      (iterate_valid hok' (begin_valid hok) hi')
    rw [hrank, hbefore', hbefore, List.nil_append, List.length_take, Nat.min_eq_left hi']

theorem existsUnique_iterator_small :
    ∃! it : Iterator ℤ, it.tree = smallTree ∧ it.Valid ∧ it.before.length = 6 :=
  existsUnique_iterator smallTree_ok (by decide)

/-! ## Places in leaves -/

/-- A node is left upwards. -/
theorem height_internalLast : {h : ℕ} → (n : Node α h) → (p : ℕ) → (up : Ancestors α h) →
    {it : Iterator α} → internalLast n p up = some it → h ≤ it.height
  | h, n, p, .root, it, hit => by
      unfold internalLast at hit
      split at hit
      · cases hit
      · obtain rfl := Option.some.inj hit
        exact Nat.le_refl h
  | h, n, p, .child parent up, it, hit => by
      rw [internalLast_under] at hit
      split at hit
      · exact (Nat.le_succ h).trans (height_internalLast (parent.close n) parent.position up hit)
      · obtain rfl := Option.some.inj hit
        exact Nat.le_refl h

/-- The end of a leaf is the place of a value further up, or of the end of the tree. -/
theorem leaf_end (n : Node α 0) (up : Ancestors α 0) :
    (⟨0, n, n.count, up⟩ : Iterator α) = (up.close n).end_ ∨
      ∃ it, it.tree = up.close n ∧ it.Pointing ∧ it.height ≠ 0 ∧
        it.before = (⟨0, n, n.count, up⟩ : Iterator α).before ∧
        decrement it = some ⟨0, n, n.count - 1, up⟩ := by
  have hspec := internalLast_spec n n.count up (Nat.le_refl _)
  cases hit : internalLast n n.count up with
  | none => exact Or.inl (rightmost_of_internalLast_none n up hit)
  | some it =>
      rw [hit] at hspec
      obtain ⟨htree, hp, hb, -⟩ := hspec
      refine Or.inr ⟨it, htree, hp, ?_, hb, decrement_internalLast n up hit⟩
      cases up with
      | root =>
          unfold internalLast at hit
          rw [if_pos rfl] at hit
          cases hit
      | child parent up =>
          rw [internalLast_under, if_pos rfl] at hit
          have := height_internalLast (parent.close n) parent.position up hit
          omega

/-- **Every place between values, before the first or after the last is at one position of one leaf
only.** -/
theorem leaf_eq_of_rank {n n' : Node α 0} {p p' : ℕ} {up up' : Ancestors α 0}
    (hok : RootOk K (up.close n)) (htree : up.close n = up'.close n') (hp : p ≤ n.count)
    (hp' : p' ≤ n'.count)
    (hrank : (⟨0, n, p, up⟩ : Iterator α).before.length
      = (⟨0, n', p', up'⟩ : Iterator α).before.length) :
    (⟨0, n, p, up⟩ : Iterator α) = ⟨0, n', p', up'⟩ := by
  have hok' : RootOk K (up'.close n') := htree ▸ hok
  -- a value further up is not at a place inside a leaf
  have hinside : ∀ {n n' : Node α 0} {p : ℕ} {up up' : Ancestors α 0}, RootOk K (up.close n) →
      up.close n = up'.close n' → p < n.count →
      (⟨0, n, p, up⟩ : Iterator α).before.length
        = (⟨0, n', n'.count, up'⟩ : Iterator α).before.length → False := by
    intro n n' p up up' hok htree hp hrank
    have hpoint : (⟨0, n, p, up⟩ : Iterator α).Pointing := hp
    rcases leaf_end n' up' with hend | ⟨it, hit, hpoint', hheight, hb, -⟩
    · have hlt := hpoint.rank_lt
      rw [hrank, hend, (end_spec _).2.1] at hlt
      change (up'.close n').inorder.length < (up.close n).inorder.length at hlt
      rw [htree] at hlt
      exact Nat.lt_irrefl _ hlt
    · have heq := Iterator.Valid.eq_of_rank (a := ⟨0, n, p, up⟩) hok (htree.trans hit.symm)
        (Or.inl hpoint) (Or.inl hpoint') (hrank.trans (congrArg List.length hb.symm))
      exact hheight (congrArg Iterator.height heq).symm
  rcases Nat.lt_or_eq_of_le hp with hlt | rfl
  · rcases Nat.lt_or_eq_of_le hp' with hlt' | rfl
    · exact Iterator.Valid.eq_of_rank (a := ⟨0, n, p, up⟩) (b := ⟨0, n', p', up'⟩) hok htree
        (Or.inl hlt) (Or.inl hlt') hrank
    · exact (hinside hok htree hlt hrank).elim
  · rcases Nat.lt_or_eq_of_le hp' with hlt' | rfl
    · exact (hinside hok' htree.symm hlt' hrank.symm).elim
    · have hpos : 1 ≤ n.count := hok.focus.pos
      have hpos' : 1 ≤ n'.count := hok'.focus.pos
      rcases leaf_end n up with hend | ⟨it, hit, hpoint, -, hb, hdec⟩
      · rcases leaf_end n' up' with hend' | ⟨it', hit', hpoint', -, hb', -⟩
        · rw [hend, hend', htree]
        · have hlt := hpoint'.rank_lt
          rw [hb', ← hrank, hend, (end_spec _).2.1, hit', htree] at hlt
          exact (Nat.lt_irrefl _ hlt).elim
      · rcases leaf_end n' up' with hend' | ⟨it', hit', hpoint', -, hb', hdec'⟩
        · have hlt := hpoint.rank_lt
          rw [hb, hrank, hend', (end_spec _).2.1, hit, htree] at hlt
          exact (Nat.lt_irrefl _ hlt).elim
        · have heq := Iterator.Valid.eq_of_rank (by rw [hit]; exact hok)
            (hit.trans (htree.trans hit'.symm)) (Or.inl hpoint) (Or.inl hpoint')
            (by rw [hb, hb', hrank])
          rw [heq, hdec'] at hdec
          have hlast := Option.some.inj hdec
          simp only [Iterator.mk.injEq, heq_eq_eq, true_and] at hlast
          obtain ⟨rfl, -, rfl⟩ := hlast
          rfl

end Steps

end Btree
