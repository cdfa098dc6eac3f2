/-
# Lookups in a B-tree (`storage/btree/btree.tcc`)

All lookups go down from the root, at each node to the child that a search of the node's keys
names.  On a tree whose values are in order, what they find is a cut of the values of the whole
tree:

* `lowerBound_cut`, `upperBound_cut` : all values below a key, or up to it, are before the
  iterator and no others;
* `internalLocate_spec` : with either kind of comparison the descent arrives at that cut, and a
  three-way comparison tells whether it met the key;
* `internalFindUnique_spec` : a key is found exactly when the tree has it, and at its place.
-/
import Atlasdb.BtreeInvariant

namespace Btree

open BtreeSearch

variable {κ α : Type}

/-! ## The descents -/

/-- The loop of the lookups: down to a leaf, at each node at the position that is searched for. -/
def descend (place : {h : ℕ} → Node α h → ℕ) : (h : ℕ) → Node α h → Ancestors α h → Iterator α
  | 0, node, up => ⟨0, node, place node, up⟩
  | h + 1, node, up =>
      descend place h (node.child (place node)) (.child (node.openAt (place node)).1 up)

section Lookups

variable (P : BtreeParams κ α) (k : κ)

/-- `internal_locate_plain_compare` -/
def internalLocatePlainCompare (t : Tree α) : Iterator α × ℤ :=
  (descend (fun node => node.lowerBound P k) t.height t.root .root, 0)

/-- The loop of `internal_locate_compare_to`, which stops at a node that has the key. -/
def locateCompareToFrom : (h : ℕ) → Node α h → Ancestors α h → Iterator α × ℤ
  | 0, node, up =>
      let res := node.lowerBound P k
      if res &&& kExactMatch ≠ 0 then (⟨0, node, res &&& kMatchMask, up⟩, kExactMatch)
      else (⟨0, node, res &&& kMatchMask, up⟩, -kExactMatch)
  | h + 1, node, up =>
      let res := node.lowerBound P k
      if res &&& kExactMatch ≠ 0 then (⟨h + 1, node, res &&& kMatchMask, up⟩, kExactMatch)
      else
        locateCompareToFrom h (node.child (res &&& kMatchMask))
          (.child (node.openAt (res &&& kMatchMask)).1 up)

/-- `internal_locate_compare_to` -/
def internalLocateCompareTo (t : Tree α) : Iterator α × ℤ :=
  locateCompareToFrom P k t.height t.root .root

/-- `internal_locate`: the iterator, and `kExactMatch`, `-kExactMatch`, or 0 for `not known`. -/
def internalLocate (t : Tree α) : Iterator α × ℤ :=
  match P.keyCompare with
  | .plain _ => internalLocatePlainCompare P k t
  | .compareTo _ => internalLocateCompareTo P k t

/-- `internal_last(iter)` -/
def Iterator.internalLast (it : Iterator α) : Option (Iterator α) :=
  Btree.internalLast it.node it.position it.up

/-- `internal_lower_bound`, `none` for an iterator without a node. -/
def internalLowerBound (t : Tree α) : Option (Iterator α) :=
  (descend (fun node => node.lowerBound P k &&& kMatchMask) t.height t.root .root).internalLast

/-- `internal_upper_bound` -/
def internalUpperBound (t : Tree α) : Option (Iterator α) :=
  (descend (fun node => node.upperBound P k) t.height t.root .root).internalLast

/-- `!compare_keys(key, iter.key())` at an iterator that has a node. -/
def notBefore (it : Iterator α) : Bool :=
  match it.value? with
  | some v => !P.order.lt k (P.key v)
  | none => false

/-- `internal_find_unique` -/
def internalFindUnique (t : Tree α) : Option (Iterator α) :=
  if (internalLocate P k t).2 = kExactMatch then some (internalLocate P k t).1
  else if (internalLocate P k t).2 = 0 then
    ((internalLocate P k t).1.internalLast).filter (notBefore P k)
  else none

/-- `internal_find_multi` -/
def internalFindMulti (t : Tree α) : Option (Iterator α) :=
  ((internalLowerBound P k t).bind fun it => it.internalLast).filter (notBefore P k)

/-- `internal_end` -/
def internalEnd (t : Tree α) (it : Option (Iterator α)) : Iterator α := it.getD t.end_

/-- `lower_bound` -/
def lowerBound (t : Tree α) : Iterator α := internalEnd t (internalLowerBound P k t)

/-- `upper_bound` -/
def upperBound (t : Tree α) : Iterator α := internalEnd t (internalUpperBound P k t)

end Lookups

end Btree

/-! ## Cuts along a descent -/

namespace BtreeNode

variable {α β : Type} {content : β → List α}

/-- The values of a node are among those below it. -/
theorem values_sublist (n : BtreeNode α β) : n.values.Sublist (inorder content n) := by
  have hrest : ∀ rest : List (α × β), (rest.map Prod.fst).Sublist (afterContent content rest) := by
    intro rest
    induction rest with
    | nil => exact List.Sublist.refl _
    | cons e rest ih =>
        exact List.Sublist.cons_cons _ (ih.trans (List.sublist_append_right _ _))
  exact (hrest n.rest).trans (List.sublist_append_right _ _)

theorem content_sublist (n : BtreeNode α β) (p : ℕ) :
    (content (n.child p)).Sublist (inorder content n) := by
  rw [inorder_eq content n p]
  exact (List.sublist_append_right _ _).trans (List.sublist_append_left _ _)

/-- At the place where a downward test turns along the values, it holds of all to the left and
fails of all to the right. -/
theorem cut_sides {p : α → Bool} {n : BtreeNode α β} (h : Downward p (inorder content n)) :
    (∀ x ∈ leftOf content n (n.values.takeWhile p).length, p x = true) ∧
      (∀ x ∈ rightOf content n (n.values.takeWhile p).length, p x = false) := by
  -- the test turns at `m` among the values of the node, and these lie between its children
  have hcut := Downward.isCut_while (List.Pairwise.sublist (values_sublist n) h)
  obtain ⟨m, hm⟩ : ∃ m, (n.values.takeWhile p).length = m := ⟨_, rfl⟩
  have hlen : m ≤ n.values.length := by
    rw [← hm]
    exact (List.takeWhile_sublist p).length_le
  have hvalue : ∀ i (hi : i < n.values.length), p n.values[i] = true ↔ i < m := by
    intro i hi
    have := hcut.getElem_iff (i := i) (by rw [List.takeWhile_append_dropWhile]; exact hi)
    simp only [List.takeWhile_append_dropWhile] at this
    rw [hm] at this
    exact this
  rw [hm]
  have hentry : ∀ i, (hi : i < n.values.length) → ∃ c, n.rest[i]? = some (n.values[i], c) := by
    intro i hi
    have hi' : i < n.rest.length := by
      unfold values at hi
      rwa [List.length_map] at hi
    have hv : n.values[i] = (n.rest[i]).1 := List.getElem_map Prod.fst
    exact ⟨(n.rest[i]).2,
      (List.getElem?_eq_getElem hi').trans (congrArg some (Prod.ext hv.symm rfl))⟩
  constructor
  · -- the last value to the left passes, and with it all before it
    cases m with
    | zero => exact fun x hx => absurd hx List.not_mem_nil
    | succ m =>
        obtain ⟨c, hc⟩ := hentry m hlen
        have hp := (hvalue m hlen).mpr (Nat.lt_succ_self m)
        rw [inorder_eq_value content n m, rightOf_value content hc] at h
        rw [leftOf_succ content hc]
        intro x hx
        rcases List.mem_append.mp hx with hx | hx
        · exact h.holds_before List.mem_cons_self hp x hx
        · rw [List.mem_singleton.mp hx]
          exact hp
  · -- and the first one to the right fails, and with it all after it
    rcases Nat.lt_or_ge m n.values.length with hlt | hge
    · obtain ⟨c, hc⟩ := hentry m hlt
      have hp : p n.values[m] = false := by
        rw [← Bool.not_eq_true]
        exact fun hp => absurd ((hvalue m hlt).mp hp) (Nat.lt_irrefl m)
      rw [inorder_eq_value content n m, rightOf_value content hc] at h
      have h' := (List.pairwise_append.mp h).2.1
      rw [rightOf_value content hc]
      intro x hx
      rcases List.mem_cons.mp hx with rfl | hx
      · exact hp
      · exact Downward.fails_after (l := [n.values[m]]) h' List.mem_cons_self hp x hx
    · intro x hx
      unfold rightOf at hx
      unfold values at hge
      rw [List.length_map] at hge
      rw [List.drop_eq_nil_of_le hge] at hx
      exact absurd hx List.not_mem_nil

theorem takeWhile_le_count (n : BtreeNode α β) (p : α → Bool) :
    (n.values.takeWhile p).length ≤ n.count := by
  have := (List.takeWhile_sublist p (l := n.values)).length_le
  unfold values at this
  rwa [List.length_map] at this

end BtreeNode

namespace Btree

open BtreeSearch

variable {κ α : Type}

/-- An iterator at the cut of a test, inside a tree. -/
structure AtCut (p : α → Bool) (t : Tree α) (it : Iterator α) : Prop where
  tree : it.tree = t
  cut : IsCut p it.before it.rest

/-- **Where a descent arrives**: if at each node it goes to the place where the test turns, it
ends in a leaf where the test turns among all values below the node it started from. -/
theorem descend_spec {p : α → Bool} {place : {h : ℕ} → Node α h → ℕ} {K : ℕ} :
    (h : ℕ) → (node : Node α h) → (up : Ancestors α h) →
    (hplace : ∀ (h' : ℕ) (n : Node α h'), n.count ≤ K →
      (BtreeNode.inorder (content h') n).Sublist (BtreeNode.inorder (content h) node) →
      place n = (n.values.takeWhile p).length) →
    (hdown : Downward p (BtreeNode.inorder (content h) node)) → (hle : node.count ≤ K) →
    (hchildren : ∀ c ∈ node.children, ChildOk K h c) →
    (descend place h node up).tree = up.close node ∧
      (descend place h node up).height = 0 ∧
      (descend place h node up).position ≤ (descend place h node up).node.count ∧
      ∃ l r, IsCut p l r ∧ (descend place h node up).before = up.before ++ l ∧
        (descend place h node up).rest = r ++ up.after
  | 0, node, up, hplace, hdown, hle, _ => by
      have hpos := hplace 0 node hle (List.Sublist.refl _)
      obtain ⟨hleft, hright⟩ := BtreeNode.cut_sides hdown
      rw [← hpos] at hleft hright
      refine ⟨rfl, rfl, ?_, BtreeNode.leftOf (content 0) node (place node),
        BtreeNode.rightOf (content 0) node (place node), ⟨hleft, hright⟩, ?_, rfl⟩
      · show place node ≤ node.count
        rw [hpos]
        exact BtreeNode.takeWhile_le_count node p
      · show up.before ++ (BtreeNode.leftOf (content 0) node (place node) ++ []) = _
        rw [List.append_nil]
  | h + 1, node, up, hplace, hdown, hle, hchildren => by
      have hpos := hplace (h + 1) node hle (List.Sublist.refl _)
      obtain ⟨hleft, hright⟩ := BtreeNode.cut_sides hdown
      rw [← hpos] at hleft hright
      have hchild : NodeOk K (ChildOk K h) (node.child (place node)) :=
        hchildren _ (BtreeNode.child_mem node (place node))
      have hsub : (BtreeNode.inorder (content h) (node.child (place node))).Sublist
          (BtreeNode.inorder (content (h + 1)) node) :=
        BtreeNode.content_sublist node (place node)
      obtain ⟨htree, hzero, hcount, l, r, hcut, hbefore, hrest⟩ :=
        @descend_spec p @place K h (node.child (place node))
          (.child (node.openAt (place node)).1 up)
          (fun h' n hn hs => hplace h' n hn (hs.trans hsub)) (List.Pairwise.sublist hsub hdown)
          hchild.le hchild.children
      rw [close_child] at htree
      -- the cut in the child, with what the node has on either side of the child
      refine ⟨htree, hzero, hcount, BtreeNode.leftOf (content (h + 1)) node (place node) ++ l,
        r ++ BtreeNode.rightOf (content (h + 1)) node (place node), hcut.append hleft hright,
        ?_, ?_⟩
      · show (descend place h _ _).before = _
        rw [hbefore, before_child, List.append_assoc]
      · show (descend place h _ _).rest = _
        rw [hrest, after_child, List.append_assoc]

section Bounds

variable {P : BtreeParams κ α} {t : Tree α}

theorem kNodeValues_lt_kExactMatch (P : BtreeParams κ α) : P.kNodeValues < kExactMatch := by
  have := P.kNodeValues_lt
  unfold kExactMatch
  omega

/-- The searches of the nodes of a tree in order turn where the test turns. -/
theorem lowerBound_place (hord : P.order.Ordered P.key t.inorder) (k : κ) (h : ℕ) (n : Node α h)
    (hn : n.count ≤ P.kNodeValues)
    (hs : (BtreeNode.inorder (content h) n).Sublist t.inorder) :
    n.lowerBound P k &&& kMatchMask = (n.values.takeWhile (P.order.below P.key k)).length :=
  BtreeNode.lowerBound_eq (List.Pairwise.sublist ((BtreeNode.values_sublist n).trans hs) hord)
    (hn.trans_lt (kNodeValues_lt_kExactMatch P)) k

theorem upperBound_place (hord : P.order.Ordered P.key t.inorder) (k : κ) (h : ℕ) (n : Node α h)
    (hs : (BtreeNode.inorder (content h) n).Sublist t.inorder) :
    n.upperBound P k = (n.values.takeWhile (P.order.upTo P.key k)).length :=
  BtreeNode.upperBound_eq (List.Pairwise.sublist ((BtreeNode.values_sublist n).trans hs) hord) k

/-- A descent from the root, and then on to a value. -/
theorem internalEnd_cut {p : α → Bool} {place : {h : ℕ} → Node α h → ℕ}
    (hok : RootOk P.kNodeValues t) (hdown : Downward p t.inorder)
    (hplace : ∀ (h : ℕ) (n : Node α h), n.count ≤ P.kNodeValues →
      (BtreeNode.inorder (content h) n).Sublist t.inorder →
      place n = (n.values.takeWhile p).length) :
    AtCut p t (internalEnd t (descend place t.height t.root .root).internalLast) ∧
      (internalEnd t (descend place t.height t.root .root).internalLast).Valid ∧
      ((descend place t.height t.root .root).internalLast = none →
        ∀ x ∈ t.inorder, p x = true) := by
  obtain ⟨htree, -, hcount, l, r, hcut, hbefore, hrest⟩ :=
    descend_spec t.height t.root .root hplace hdown (hok.le.trans hok.max) hok.children
  have hl : (descend place t.height t.root .root).before = l := hbefore
  have hr : (descend place t.height t.root .root).rest = r := by
    rw [hrest]
    exact List.append_nil r
  have hwhole : t.inorder = l ++ r := by
    have := Iterator.inorder_tree (descend place t.height t.root .root)
    rw [htree, hl, hr] at this
    exact this
  have hspec := internalLast_spec (descend place t.height t.root .root).node
    (descend place t.height t.root .root).position (descend place t.height t.root .root).up hcount
  unfold Iterator.internalLast internalEnd
  cases hlast : Btree.internalLast (descend place t.height t.root .root).node
      (descend place t.height t.root .root).position (descend place t.height t.root .root).up with
  | none =>
      rw [hlast] at hspec
      have hnil : r = [] := hr.symm.trans hspec
      obtain ⟨hendtree, hendbefore, hendrest, -⟩ := end_spec t
      have hall : ∀ x ∈ t.inorder, p x = true := by
        rw [hwhole, hnil, List.append_nil]
        exact hcut.holds
      refine ⟨⟨hendtree, ?_⟩, end_valid t, fun _ => hall⟩
      rw [Option.getD_none, hendbefore, hendrest]
      exact ⟨hall, fun x hx => absurd hx List.not_mem_nil⟩
  | some it =>
      rw [hlast] at hspec
      obtain ⟨htree', hpoint, hb, hr'⟩ := hspec
      refine ⟨⟨htree'.trans htree, ?_⟩, Or.inl hpoint, fun h => absurd h nofun⟩
      rw [Option.getD_some, hb, hr']
      exact (show IsCut p (descend place t.height t.root .root).before
        (descend place t.height t.root .root).rest by rw [hl, hr]; exact hcut)

/-- **`lower_bound`**: the values below the key are those before the iterator. -/
theorem lowerBound_cut (hok : RootOk P.kNodeValues t) (hord : P.order.Ordered P.key t.inorder)
    (k : κ) : AtCut (P.order.below P.key k) t (lowerBound P k t) ∧ (lowerBound P k t).Valid :=
  have h := internalEnd_cut hok (hord.downward_below k)
    (fun h n hn hs => lowerBound_place hord k h n hn hs)
  ⟨h.1, h.2.1⟩

/-- **`upper_bound`**: the values up to the key are those before the iterator. -/
theorem upperBound_cut (hok : RootOk P.kNodeValues t) (hord : P.order.Ordered P.key t.inorder)
    (k : κ) : AtCut (P.order.upTo P.key k) t (upperBound P k t) ∧ (upperBound P k t).Valid :=
  have h := internalEnd_cut hok (hord.downward_upTo k)
    (fun h n _ hs => upperBound_place hord k h n hs)
  ⟨h.1, h.2.1⟩

/-! ## Locating a key -/

/-- A three-way search of a node flags its result when the value at the place has the key. -/
theorem lowerBound_flag {β : Type} {n : BtreeNode α β} {comp : CompareTo κ}
    (hc : P.keyCompare = .compareTo comp) (hord : P.order.Ordered P.key n.values)
    (hcount : n.count < kExactMatch) (k : κ) :
    n.lowerBound P k &&& kExactMatch ≠ 0 ↔
      ∃ v c, n.rest[(n.values.takeWhile (P.order.below P.key k)).length]? = some (v, c) ∧
        P.order.Equivalent (P.key v) k := by
  have hlt := (BtreeNode.takeWhile_le_count n (P.order.below P.key k)).trans_lt hcount
  have hkeys : ∀ (i : ℕ) (h : i < (n.keys P).length) (h' : i < n.rest.length),
      (n.keys P)[i] = P.key (n.rest[i]).1 := by
    intro i h h'
    exact (List.getElem_map P.key).trans (congrArg P.key (List.getElem_map Prod.fst))
  have hlen : (n.keys P).length = n.rest.length := by
    unfold BtreeNode.keys BtreeNode.values
    rw [List.length_map, List.length_map]
  have hequiv : ∀ a b : κ, comp.compare a b = 0 ↔ P.order.Equivalent a b := by
    intro a b
    unfold BtreeParams.order
    rw [hc]
    unfold StrictWeakOrder.Equivalent
    simp only [KeyCompare.order, CompareTo.order, decide_eq_false_iff_not]
    have := comp.swap a b
    have := comp.swap b a
    omega
  rw [BtreeNode.lowerBound_compareTo hc hord]
  split
  · rename_i hmatch
    obtain ⟨-, hi, hzero⟩ := hmatch
    refine iff_of_true (or_and_kExactMatch _) ?_
    have hi' := hi.trans_eq hlen
    have hzero' := (hequiv _ _).mp hzero
    rw [hkeys _ hi hi'] at hzero'
    exact ⟨_, _, List.getElem?_eq_getElem hi', hzero'⟩
  · rename_i hmatch
    refine iff_of_false (fun h => h (and_kExactMatch hlt)) ?_
    rintro ⟨v, c, hentry, hv⟩
    obtain ⟨hi, hget⟩ := List.getElem?_eq_some_iff.mp hentry
    refine hmatch ⟨by omega, by omega, ?_⟩
    rw [hkeys _ (by omega) hi, hget]
    exact (hequiv _ _).mpr hv

/-- What locating a key from a node on gives. -/
structure Located {h : ℕ} (P : BtreeParams κ α) (k : κ) (node : Node α h) (up : Ancestors α h)
    (res : Iterator α × ℤ) : Prop where
  tree : res.1.tree = up.close node
  position : res.1.position ≤ res.1.node.count
  cut : ∃ l r, IsCut (P.order.below P.key k) l r ∧ res.1.before = up.before ++ l ∧
    res.1.rest = r ++ up.after
  /-- The key itself, or a leaf and no such key below the node. -/
  exact : (res.2 = kExactMatch ∧
      ∃ v, res.1.value? = some v ∧ P.order.Equivalent (P.key v) k) ∨
    (res.2 = -kExactMatch ∧ res.1.height = 0 ∧
      ∀ v ∈ BtreeNode.inorder (content h) node, ¬ P.order.Equivalent (P.key v) k)

/-- At a node that has the key the search stops, and stands at the cut. -/
theorem located_here {h : ℕ} {node : Node α h} {up : Ancestors α h} {k : κ} {v : α}
    {c : Child α h} {m : ℕ}
    (hstrict : P.order.StrictlyOrdered P.key (BtreeNode.inorder (content h) node))
    (hentry : node.rest[m]? = some (v, c)) (hv : P.order.Equivalent (P.key v) k)
    (hright : ∀ x ∈ BtreeNode.rightOf (content h) node m, P.order.below P.key k x = false) :
    Located P k node up (⟨h, node, m, up⟩, kExactMatch) := by
  have hm : m < node.count := (List.getElem?_eq_some_iff.mp hentry).1
  refine ⟨rfl, hm.le, ⟨BtreeNode.beforeValue (content h) node m,
    BtreeNode.rightOf (content h) node m, ⟨?_, hright⟩, rfl, rfl⟩, Or.inl ⟨rfl, v, ?_, hv⟩⟩
  · intro x hx
    rw [BtreeNode.inorder_eq_value (content h) node m, BtreeNode.rightOf_value _ hentry] at hstrict
    have hxv := (List.pairwise_append.mp hstrict).2.2 x hx v List.mem_cons_self
    exact StrictWeakOrder.lt_of_lt_of_not_lt hxv hv.2
  · show (node.rest[m]?).map Prod.fst = some v
    rw [hentry]
    rfl

/-- A key that is not below the child and not at the place is not below the node. -/
theorem not_equivalent_of_child {h : ℕ} {node : Node α h} {k : κ} {m : ℕ}
    (hstrict : P.order.StrictlyOrdered P.key (BtreeNode.inorder (content h) node))
    (hleft : ∀ x ∈ BtreeNode.leftOf (content h) node m, P.order.below P.key k x = true)
    (hright : ∀ x ∈ BtreeNode.rightOf (content h) node m, P.order.below P.key k x = false)
    (hnot : ¬ ∃ v c, node.rest[m]? = some (v, c) ∧ P.order.Equivalent (P.key v) k)
    (hchild : ∀ x ∈ content h (node.child m), ¬ P.order.Equivalent (P.key x) k) :
    ∀ x ∈ BtreeNode.inorder (content h) node, ¬ P.order.Equivalent (P.key x) k := by
  intro x hx hequiv
  rw [BtreeNode.inorder_eq (content h) node m] at hx
  rcases List.mem_append.mp hx with hx | hx
  · rcases List.mem_append.mp hx with hx | hx
    · exact Bool.false_ne_true (hequiv.1.symm.trans (hleft x hx))
    · exact hchild x hx hequiv
  · rcases Nat.lt_or_ge m node.rest.length with hlt | hge
    · have hentry : node.rest[m]? = some ((node.rest[m]).1, (node.rest[m]).2) :=
        List.getElem?_eq_getElem hlt
      rw [BtreeNode.inorder_eq_value (content h) node m] at hstrict
      have hafter := (List.pairwise_append.mp hstrict).2.1
      rw [BtreeNode.rightOf_value _ hentry] at hx hafter hright
      rcases List.mem_cons.mp hx with rfl | hx
      · exact hnot ⟨_, _, hentry, hequiv⟩
      · have hvx := List.rel_of_pairwise_cons hafter hx
        have hvk := StrictWeakOrder.lt_of_lt_of_not_lt hvx hequiv.2
        exact Bool.false_ne_true ((hright _ List.mem_cons_self).symm.trans hvk)
    · unfold BtreeNode.rightOf at hx
      rw [List.drop_eq_nil_of_le hge] at hx
      exact absurd hx List.not_mem_nil

/-- **The descent of a three-way comparison** from a node: by induction on the height, with the
search at each node deciding between stopping there and going on to one child. -/
theorem locateCompareToFrom_spec {comp : CompareTo κ} (hc : P.keyCompare = .compareTo comp)
    (k : κ) : (h : ℕ) → (node : Node α h) → (up : Ancestors α h) →
    P.order.StrictlyOrdered P.key (BtreeNode.inorder (content h) node) →
    node.count ≤ P.kNodeValues → (∀ c ∈ node.children, ChildOk P.kNodeValues h c) →
    Located P k node up (locateCompareToFrom P k h node up)
  | 0, node, up, hstrict, hle, _ => by
      have hord := hstrict.ordered
      have hvalues := List.Pairwise.sublist (BtreeNode.values_sublist node) hord
      have hcount := hle.trans_lt (kNodeValues_lt_kExactMatch P)
      have hmask := BtreeNode.lowerBound_eq hvalues hcount k
      obtain ⟨hleft, hright⟩ := BtreeNode.cut_sides (hord.downward_below k)
      unfold locateCompareToFrom
      by_cases hflag : node.lowerBound P k &&& kExactMatch ≠ 0
      · obtain ⟨v, c, hentry, hv⟩ := (lowerBound_flag hc hvalues hcount k).mp hflag
        rw [if_pos hflag, hmask]
        exact located_here hstrict hentry hv hright
      · have hnot := fun h => hflag ((lowerBound_flag hc hvalues hcount k).mpr h)
        rw [if_neg hflag, hmask]
        refine ⟨rfl, BtreeNode.takeWhile_le_count node _, ⟨_, _, ⟨hleft, hright⟩, ?_, rfl⟩,
          Or.inr ⟨rfl, rfl, ?_⟩⟩
        · exact congrArg (up.before ++ ·) (List.append_nil _)
        · exact not_equivalent_of_child hstrict hleft hright hnot
            fun x hx => absurd hx List.not_mem_nil
  | h + 1, node, up, hstrict, hle, hchildren => by
      have hord := hstrict.ordered
      have hvalues := List.Pairwise.sublist (BtreeNode.values_sublist node) hord
      have hcount := hle.trans_lt (kNodeValues_lt_kExactMatch P)
      have hmask := BtreeNode.lowerBound_eq hvalues hcount k
      obtain ⟨hleft, hright⟩ := BtreeNode.cut_sides (hord.downward_below k)
      unfold locateCompareToFrom
      by_cases hflag : node.lowerBound P k &&& kExactMatch ≠ 0
      · obtain ⟨v, c, hentry, hv⟩ := (lowerBound_flag hc hvalues hcount k).mp hflag
        rw [if_pos hflag, hmask]
        exact located_here hstrict hentry hv hright
      · have hnot := fun h => hflag ((lowerBound_flag hc hvalues hcount k).mpr h)
        rw [if_neg hflag, hmask]
        generalize (node.values.takeWhile (P.order.below P.key k)).length = m at *
        have hchild : NodeOk P.kNodeValues (ChildOk P.kNodeValues h) (node.child m) :=
          hchildren _ (BtreeNode.child_mem node m)
        have hsub : (BtreeNode.inorder (content h) (node.child m)).Sublist
            (BtreeNode.inorder (content (h + 1)) node) := BtreeNode.content_sublist node m
        obtain ⟨htree, hpos, ⟨l, r, hcut, hbefore, hrest⟩, hexact⟩ :=
          locateCompareToFrom_spec hc k h (node.child m) (.child (node.openAt m).1 up)
            (List.Pairwise.sublist hsub hstrict) hchild.le hchild.children
        rw [close_child] at htree
        rw [before_child, List.append_assoc] at hbefore
        rw [after_child, ← List.append_assoc] at hrest
        refine ⟨htree, hpos, ⟨_, _, hcut.append hleft hright, hbefore, hrest⟩, ?_⟩
        rcases hexact with hexact | ⟨hres, hzero, hnone⟩
        · exact Or.inl hexact
        · -- the key is not below the child, and so not below the node
          exact Or.inr ⟨hres, hzero, not_equivalent_of_child hstrict hleft hright hnot hnone⟩

/-- **`internal_locate`** on a tree with unique keys, with either kind of comparison: it stands at
the cut of the key, and the second component is right about the key where it says anything. -/
theorem internalLocate_spec (hok : RootOk P.kNodeValues t)
    (hstrict : P.order.StrictlyOrdered P.key t.inorder) (k : κ) :
    AtCut (P.order.below P.key k) t (internalLocate P k t).1 ∧
      (internalLocate P k t).1.position ≤ (internalLocate P k t).1.node.count ∧
      (((internalLocate P k t).2 = kExactMatch ∧
          ∃ v, (internalLocate P k t).1.value? = some v ∧ P.order.Equivalent (P.key v) k) ∨
        ((internalLocate P k t).2 = -kExactMatch ∧ (internalLocate P k t).1.height = 0 ∧
          ∀ v ∈ t.inorder, ¬ P.order.Equivalent (P.key v) k) ∨
        ((internalLocate P k t).2 = 0 ∧ (internalLocate P k t).1.height = 0)) := by
  have hle := hok.le.trans hok.max
  unfold internalLocate
  cases hc : P.keyCompare with
  | plain comp =>
      have hplace : ∀ (h : ℕ) (n : Node α h), n.count ≤ P.kNodeValues →
          (BtreeNode.inorder (content h) n).Sublist t.inorder →
          n.lowerBound P k = (n.values.takeWhile (P.order.below P.key k)).length :=
        fun h n _ hs => BtreeNode.lowerBound_plain hc
          (List.Pairwise.sublist ((BtreeNode.values_sublist n).trans hs) hstrict.ordered) k
      obtain ⟨htree, hzero, hcount, l, r, hcut, hbefore, hrest⟩ :=
        descend_spec t.height t.root .root hplace (hstrict.ordered.downward_below k) hle
          hok.children
      rw [Ancestors.before, List.nil_append] at hbefore
      rw [Ancestors.after, List.append_nil] at hrest
      refine ⟨⟨htree, ?_⟩, hcount, Or.inr (Or.inr ⟨rfl, hzero⟩)⟩
      show IsCut _ (descend _ t.height t.root .root).before (descend _ t.height t.root .root).rest
      rw [hbefore, hrest]
      exact hcut
  | compareTo comp =>
      obtain ⟨htree, hpos, ⟨l, r, hcut, hbefore, hrest⟩, hexact⟩ :=
        locateCompareToFrom_spec hc k t.height t.root .root hstrict hle hok.children
      rw [Ancestors.before, List.nil_append] at hbefore
      rw [Ancestors.after, List.append_nil] at hrest
      refine ⟨⟨htree, ?_⟩, hpos, ?_⟩
      · show IsCut _ (locateCompareToFrom P k t.height t.root .root).1.before
          (locateCompareToFrom P k t.height t.root .root).1.rest
        rw [hbefore, hrest]
        exact hcut
      · rcases hexact with hexact | hnone
        · exact Or.inl hexact
        · exact Or.inr (Or.inl hnone)

/-- Leaving nodes at their end keeps the cut. -/
theorem AtCut.internalLast {p : α → Bool} {it : Iterator α} (h : AtCut p t it)
    (hp : it.position ≤ it.node.count) :
    match it.internalLast with
    | none => ∀ x ∈ t.inorder, p x = true
    | some it' => AtCut p t it' ∧ it'.Pointing := by
  have hspec := internalLast_spec it.node it.position it.up hp
  unfold Iterator.internalLast
  cases hlast : Btree.internalLast it.node it.position it.up with
  | none =>
      rw [hlast] at hspec
      have hwhole := it.inorder_tree
      rw [show it.rest = [] from hspec, List.append_nil, h.tree] at hwhole
      exact fun x hx => h.cut.holds x (hwhole ▸ hx)
  | some it' =>
      rw [hlast] at hspec
      obtain ⟨htree, hpoint, hb, hr⟩ := hspec
      refine ⟨⟨htree.trans h.tree, ?_⟩, hpoint⟩
      rw [hb, hr]
      exact h.cut

/-- An iterator that points at a value is left as it is. -/
theorem internalLast_pointing {it : Iterator α} (hp : it.Pointing) :
    it.internalLast = some it := by
  obtain ⟨h, node, position, up⟩ := it
  have hne : position ≠ node.count := Nat.ne_of_lt hp
  unfold Iterator.internalLast
  cases up with
  | root => exact if_neg hne
  | child parent up => exact if_neg hne

/-- At the cut below a key the next value has the key, or none has. -/
theorem AtCut.find {it : Iterator α} {k : κ} (h : AtCut (P.order.below P.key k) t it)
    (hord : P.order.Ordered P.key t.inorder) (hp : it.Pointing) :
    (notBefore P k it = true ∧ ∃ v, it.value? = some v ∧ P.order.Equivalent (P.key v) k) ∨
      (notBefore P k it = false ∧ ∀ v ∈ t.inorder, ¬ P.order.Equivalent (P.key v) k) := by
  obtain ⟨v, c, -, hv⟩ := hp.entry
  obtain ⟨tail, hrest⟩ := Iterator.rest_of_value? hv
  have hcut := h.cut
  have hwhole := it.inorder_tree
  rw [h.tree] at hwhole
  rw [hrest] at hcut hwhole
  have hvk : P.order.lt (P.key v) k = false := hcut.fails v List.mem_cons_self
  unfold notBefore
  rw [hv]
  cases hkv : P.order.lt k (P.key v) with
  | false => exact Or.inl ⟨by simp only [hkv, Bool.not_false], v, rfl, hvk, hkv⟩
  | true =>
      refine Or.inr ⟨by simp only [hkv, Bool.not_true], fun y hy hequiv => ?_⟩
      rw [hwhole] at hy hord
      have hyv : P.order.lt (P.key y) (P.key v) = true :=
        StrictWeakOrder.lt_of_not_lt_of_lt hequiv.2 hkv
      rcases List.mem_append.mp hy with hy | hy
      · exact Bool.false_ne_true (hequiv.1.symm.trans (hcut.holds y hy))
      · rcases List.mem_cons.mp hy with rfl | hy
        · exact Bool.false_ne_true ((P.order.irrefl _).symm.trans hyv)
        · have := List.rel_of_pairwise_cons (List.pairwise_append.mp hord).2.1 hy
          exact Bool.false_ne_true (this.symm.trans hyv)

/-- What a lookup for a key has to give. -/
def Found (P : BtreeParams κ α) (k : κ) (t : Tree α) (res : Option (Iterator α)) : Prop :=
  match res with
  | some it => AtCut (P.order.below P.key k) t it ∧
      ∃ v, it.value? = some v ∧ P.order.Equivalent (P.key v) k
  | none => ∀ v ∈ t.inorder, ¬ P.order.Equivalent (P.key v) k

/-- No value is equivalent to a key that all values are below. -/
theorem not_equivalent_of_below {k : κ} (h : ∀ x ∈ t.inorder, P.order.below P.key k x = true) :
    ∀ v ∈ t.inorder, ¬ P.order.Equivalent (P.key v) k :=
  fun v hv hequiv => Bool.false_ne_true (hequiv.1.symm.trans (h v hv))

/-- The test that ends the lookups, after leaving the nodes at their end. -/
theorem AtCut.found {it : Iterator α} {k : κ} (h : AtCut (P.order.below P.key k) t it)
    (hord : P.order.Ordered P.key t.inorder) (hp : it.position ≤ it.node.count) :
    Found P k t (it.internalLast.filter (notBefore P k)) := by
  have hlast := h.internalLast hp
  cases hi : it.internalLast with
  | none =>
      rw [hi] at hlast
      exact not_equivalent_of_below hlast
  | some it' =>
      rw [hi] at hlast
      obtain ⟨hcut, hpoint⟩ := hlast
      rcases hcut.find hord hpoint with ⟨htest, hv⟩ | ⟨htest, hnone⟩
      · rw [Option.filter_some_pos htest]
        exact ⟨hcut, hv⟩
      · rw [Option.filter_some_neg (by rw [htest])]
        exact hnone

/-- What tells a key that was met from the zero of a plain comparison. -/
theorem kExactMatch_ne_zero : (kExactMatch : ℤ) ≠ 0 := by
  unfold kExactMatch
  decide

/-- **`internal_find_unique`** finds a key at its place, and exactly when the tree has it. -/
theorem internalFindUnique_spec (hok : RootOk P.kNodeValues t)
    (hstrict : P.order.StrictlyOrdered P.key t.inorder) (k : κ) :
    Found P k t (internalFindUnique P k t) := by
  obtain ⟨hcut, hpos, hexact⟩ := internalLocate_spec hok hstrict k
  have hE := kExactMatch_ne_zero
  unfold internalFindUnique
  rcases hexact with ⟨hres, hv⟩ | ⟨hres, -, hnone⟩ | ⟨hres, -⟩
  · rw [if_pos hres]
    exact ⟨hcut, hv⟩
  · rw [hres, if_neg (by omega), if_neg (by omega)]
    exact hnone
  · rw [if_neg (by rw [hres]; exact hE.symm), if_pos hres]
    exact hcut.found hstrict.ordered hpos

/-- **`internal_find_multi`** finds the first value with a key. -/
theorem internalFindMulti_spec (hok : RootOk P.kNodeValues t)
    (hord : P.order.Ordered P.key t.inorder) (k : κ) :
    Found P k t (internalFindMulti P k t) := by
  have hplace : ∀ (h : ℕ) (n : Node α h), n.count ≤ P.kNodeValues →
      (BtreeNode.inorder (content h) n).Sublist t.inorder →
      n.lowerBound P k &&& kMatchMask = (n.values.takeWhile (P.order.below P.key k)).length :=
    fun h n hn hs => lowerBound_place hord k h n hn hs
  obtain ⟨hcut, -, hnone⟩ := internalEnd_cut hok (hord.downward_below k) hplace
  unfold internalFindMulti internalLowerBound
  cases hlast : (descend (fun node => node.lowerBound P k &&& kMatchMask) t.height t.root
      .root).internalLast with
  | none => exact not_equivalent_of_below (hnone hlast)
  | some it =>
      rw [hlast] at hcut
      obtain ⟨htree, -, hcount, -⟩ := descend_spec t.height t.root .root hplace
        (hord.downward_below k) (hok.le.trans hok.max) hok.children
      have hspec := internalLast_spec _ _ (descend (fun node => node.lowerBound P k &&& kMatchMask)
        t.height t.root .root).up hcount
      unfold Iterator.internalLast at hlast
      rw [hlast] at hspec
      exact AtCut.found hcut hord hspec.2.1.le

end Bounds

end Btree
