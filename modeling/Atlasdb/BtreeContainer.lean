/-
# Containers on B-trees (`storage/btree/btree_container.h`, `basic_repository.h`)

What a user of `btree_map` and `btree_multimap` does with iterators: loops forwards and backwards,
`operator[]`, writing through an iterator; and the repositories and indexes that are kept in
such containers.

* `forEach_spec`, `forEachBack_spec` : loops between two iterators visit the values between them,
  in order and in reverse order;
* `write_spec`, `subscriptWrite_spec`, `subscript_find` : writing to an entry changes this entry
  only;
* `repository_walk`, `repository_walk_back`, `repository_del` : what is done to a tree with distinct
  keys is done to a repository, whose positions are the iterators of the tree;
* `exists_repository`, `exists_index` : all repositories and indexes are kept in trees;
* `loadTree_eq` : a page loaded by iterators.
-/
import Atlasdb.BtreeVerify
import Atlasdb.Stomanip

namespace Btree

open BtreeSearch

variable {κ α σ : Type}

section Definitions

/-- The loop `for (; it != last; ++it)` with a body that reads `*it`. -/
def forEach (f : σ → α → σ) : ℕ → Iterator α → Iterator α → σ → Option σ
  | fuel, it, last, s =>
      if it.same last then some s
      else
        match fuel with
        | 0 => none
        | fuel + 1 => it.value?.bind fun v => forEach f fuel (increment it) last (f s v)

/-- The same loop with reverse iterators, which read what is before their base. -/
def forEachBack (f : σ → α → σ) : ℕ → Iterator α → Iterator α → σ → Option σ
  | fuel, it, last, s =>
      if it.same last then some s
      else
        match fuel with
        | 0 => none
        | fuel + 1 => (decrement it).bind fun prev => prev.value?.bind fun v =>
            forEachBack f fuel prev last (f s v)

/-- A loop in a tree; in an empty one both iterators have no node. -/
def loop (each : ℕ → Iterator α → Iterator α → σ → Option σ) (b : Btree α)
    (first last : Option (Iterator α)) (s : σ) : Option σ :=
  match first, last with
  | some first, some last => each b.size first last s
  | none, none => some s
  | _, _ => none

/-- `*it = v`, for a value with the same key. -/
def write (b : Btree α) (it : Iterator α) (v : α) : Btree α :=
  { b with root := some (it.up.close (it.node.setValue it.position v)) }

variable (P : BtreeParams κ α)

/-- `operator[](key)` up to `->second`, with `generate_value`. -/
def subscript (generate : κ → α) (b : Btree α) (k : κ) : Option (Btree α × Option (Iterator α)) :=
  (insertUniqueKey P b k (generate k)).map fun r => (r.1, r.2.1)

/-- `map[key] = data`, where assigning the data is a function of the entry. -/
def subscriptWrite (generate : κ → α) (assign : α → α) (b : Btree α) (k : κ) : Option (Btree α) :=
  (subscript P generate b k).bind fun r => r.2.bind fun it =>
    it.value?.map fun v => write r.1 it (assign v)

end Definitions

/-! ## Loops -/

section Loops

variable {K : ℕ} {f : σ → α → σ}

/-- **A loop forwards** visits the values between its iterators in order. -/
theorem forEach_spec {first last : Iterator α} (hok : RootOk K first.tree)
    (htree : first.tree = last.tree) (hfirst : first.Valid) (hlast : last.Valid) {m : List α}
    (hm : last.before = first.before ++ m) {fuel : ℕ} (hfuel : m.length ≤ fuel) (s : σ) :
    forEach f fuel first last s = some (m.foldl f s) := by
  have hrest : first.rest = m ++ last.rest := by
    have hwhole : first.before ++ first.rest = last.before ++ last.rest := by
      rw [← Iterator.inorder_tree, htree, Iterator.inorder_tree]
    rw [hm, List.append_assoc] at hwhole
    exact List.append_cancel_left hwhole
  have hsame : first.same last = true ↔ m = [] := by
    rw [Iterator.Valid.same_iff hok htree hfirst hlast, hm, List.length_append,
      ← List.length_eq_zero_iff]
    omega
  induction m generalizing first fuel s with
  | nil =>
      unfold forEach
      rw [if_pos (hsame.mpr rfl)]
      rfl
  | cons v m ih =>
      obtain ⟨fuel, rfl⟩ : ∃ n, fuel = n + 1 := ⟨fuel - 1, by rw [List.length_cons] at hfuel; omega⟩
      have hv := hfirst.normal.value? hrest
      obtain ⟨htree', hb, hr⟩ := increment_spec hv
      have hok' : RootOk K (increment first).tree := by rw [htree']; exact hok
      have hvalid' := increment_valid hok (Iterator.Pointing.of_value? hv)
      have hm' : last.before = (increment first).before ++ m := by
        rw [hb, hm, List.append_assoc, List.singleton_append]
      unfold forEach
      rw [if_neg fun h => absurd (hsame.mp h) (List.cons_ne_nil v m)]
      simp only [hv, Option.bind_some]
      refine ih hok' (htree'.trans htree) hvalid' hm' (Nat.le_of_succ_le_succ hfuel) (f s v) ?_ ?_
      · rw [hr] at hrest
        exact (List.cons.inj hrest).2
      · rw [Iterator.Valid.same_iff hok' (htree'.trans htree) hvalid' hlast, hm',
          List.length_append, ← List.length_eq_zero_iff]
        omega

/-- **A loop backwards** visits them in reverse order. -/
theorem forEachBack_spec {first last : Iterator α} (hok : RootOk K first.tree)
    (htree : first.tree = last.tree) (hfirst : first.Valid) (hlast : last.Valid) {m : List α}
    (hm : first.before = last.before ++ m.reverse) {fuel : ℕ} (hfuel : m.length ≤ fuel) (s : σ) :
    forEachBack f fuel first last s = some (m.foldl f s) := by
  have hsame : first.same last = true ↔ m = [] := by
    rw [Iterator.Valid.same_iff hok htree hfirst hlast, hm, List.length_append, List.length_reverse,
      ← List.length_eq_zero_iff]
    omega
  induction m generalizing first fuel s with
  | nil =>
      unfold forEachBack
      rw [if_pos (hsame.mpr rfl)]
      rfl
  | cons v m ih =>
      obtain ⟨fuel, rfl⟩ : ∃ n, fuel = n + 1 := ⟨fuel - 1, by rw [List.length_cons] at hfuel; omega⟩
      have hm' : first.before = last.before ++ m.reverse ++ [v] := by
        rw [hm, List.reverse_cons, List.append_assoc]
      have hspec := decrement_spec hok hfirst.position_le
      unfold forEachBack
      rw [if_neg fun h => absurd (hsame.mp h) (List.cons_ne_nil v m)]
      cases hdec : decrement first with
      | none =>
          rw [hdec] at hspec
          change first.before = [] at hspec
          rw [hm'] at hspec
          exact absurd hspec (List.append_ne_nil_of_right_ne_nil _ (List.cons_ne_nil v []))
      | some prev =>
          rw [hdec] at hspec
          obtain ⟨htree', w, hw, hb, -⟩ := hspec
          rw [hm'] at hb
          obtain ⟨hb', hvw⟩ := List.append_inj' hb rfl
          obtain rfl := (List.cons.inj hvw).1
          have hok' : RootOk K prev.tree := by rw [htree']; exact hok
          have hvalid' : prev.Valid := Or.inl (Iterator.Pointing.of_value? hw)
          simp only [Option.bind_some, hw]
          refine ih hok' (htree'.trans htree) hvalid' hb'.symm (Nat.le_of_succ_le_succ hfuel)
            (f s v) ?_
          rw [Iterator.Valid.same_iff hok' (htree'.trans htree) hvalid' hlast, ← hb',
            List.length_append, List.length_reverse, ← List.length_eq_zero_iff]
          omega

variable {P : BtreeParams κ α} {b : Btree α}

/-- A loop forwards in a tree. -/
theorem loop_forEach {first last : Option (Iterator α)} (hok : b.Ok P) (hfirst : b.ValidIn first)
    (hlast : b.ValidIn last) {m : List α} (hm : beforeOf last = beforeOf first ++ m) (s : σ) :
    loop (forEach f) b first last s = some (m.foldl f s) := by
  have hfuel : m.length ≤ b.size := by
    rw [size_eq hok, hlast.values_eq, hm]
    simp only [List.length_append]
    omega
  rcases validIn_cases hfirst hlast with ⟨rfl, rfl⟩ | ⟨it, l, rfl, rfl, hroot, htree, hit, hl⟩
  · have hnil : m = [] := hm.symm
    rw [hnil]
    rfl
  · exact forEach_spec (hok.root _ hroot) htree hit hl hm hfuel s

/-- A loop backwards in a tree. -/
theorem loop_forEachBack {first last : Option (Iterator α)} (hok : b.Ok P)
    (hfirst : b.ValidIn first) (hlast : b.ValidIn last) {m : List α}
    (hm : beforeOf first = beforeOf last ++ m.reverse) (s : σ) :
    loop (forEachBack f) b first last s = some (m.foldl f s) := by
  have hfuel : m.length ≤ b.size := by
    rw [size_eq hok, hfirst.values_eq, hm]
    simp only [List.length_append, List.length_reverse]
    omega
  rcases validIn_cases hfirst hlast with ⟨rfl, rfl⟩ | ⟨it, l, rfl, rfl, hroot, htree, hit, hl⟩
  · have hnil : m = [] := List.reverse_eq_nil_iff.mp hm.symm
    rw [hnil]
    rfl
  · exact forEachBack_spec (hok.root _ hroot) htree hit hl hm hfuel s

end Loops

/-! ## Writing -/

section Write

variable {P : BtreeParams κ α} {b : Btree α}

/-- **Writing to an entry** changes this entry and nothing else; the iterator stays on it. -/
theorem write_spec {it : Iterator α} {v w : α} (hok : b.Ok P) (hroot : b.root = some it.tree)
    (hw : it.value? = some w) :
    (write b it v).Ok P ∧ (write b it v).values = it.before ++ v :: it.rest.tail ∧
      ∃ it' : Iterator α, (write b it v).root = some it'.tree ∧ it'.value? = some v ∧
        it'.before = it.before := by
  obtain ⟨tail, htail⟩ := Iterator.rest_of_value? hw
  obtain ⟨h, node, p, up⟩ := it
  obtain ⟨hvalue, hbefore, hrest⟩ := setValue_spec v hw
  have hroot' : (write b ⟨h, node, p, up⟩ v).root
      = some (⟨h, node.setValue p v, p, up⟩ : Iterator α).tree := rfl
  have hvalues : (write b ⟨h, node, p, up⟩ v).values
      = (⟨h, node, p, up⟩ : Iterator α).before
        ++ v :: (⟨h, node, p, up⟩ : Iterator α).rest.tail := by
    rw [values_of_root hroot', Iterator.inorder_tree, hbefore, hrest]
  refine ⟨⟨?_, ?_⟩, hvalues, _, hroot', hvalue, hbefore⟩
  · intro t ht
    obtain rfl := Option.some.inj (hroot'.symm.trans ht)
    exact RootOk.congr (hok.root _ hroot) (BtreeNode.count_setValue node p v) rfl
      (BtreeNode.children_setValue node p v)
  · intro t ht hheight
    rw [← values_of_root ht, hvalues]
    obtain rfl := Option.some.inj (hroot'.symm.trans ht)
    have hsize := hok.size _ hroot (by
      change (up.close (node.setValue p v)).height ≠ 0 at hheight
      show (up.close node).height ≠ 0
      rwa [height_eq] at hheight ⊢)
    rw [Iterator.inorder_tree, htail] at hsize
    show b.rootSize = _
    rw [hsize, htail]
    simp only [List.length_append, List.length_cons, List.tail_cons]

/-- **`map[key] = data`** leaves one entry under the key: the one that was there, or a new one, with
the data assigned.  The entries under other keys stay. -/
theorem subscriptWrite_spec {generate : κ → α} {assign : α → α} (hb : UniqueOk P b)
    (hgenerate : ∀ k, P.key (generate k) = k) (hassign : ∀ v, P.key (assign v) = P.key v) (k : κ) :
    ∃ b', subscriptWrite P generate assign b k = some b' ∧ UniqueOk P b' ∧
      P.order.bucket P.key k b'.values
        = [assign ((P.order.bucket P.key k b.values).head?.getD (generate k))] ∧
      ∀ k', ¬P.order.Equivalent k k' →
        P.order.bucket P.key k' b'.values = P.order.bucket P.key k' b.values := by
  obtain ⟨b₁, it, w, hinsert, hb₁, hvalues₁, hroot₁, hw, hequiv, hnew⟩ :=
    insertUnique_spec hb (generate k)
  rw [hgenerate] at hinsert hequiv hnew
  obtain ⟨tail, htail⟩ := Iterator.rest_of_value? hw
  obtain ⟨hok₂, hvalues₂, -⟩ := write_spec (v := assign w) hb₁.ok hroot₁ hw
  have hwhole : b₁.values = it.before ++ w :: tail := by
    rw [values_of_root hroot₁, Iterator.inorder_tree, htail]
  rw [htail, List.tail_cons] at hvalues₂
  have hbucket : P.order.bucket P.key k b₁.values = [w] := by
    refine hb₁.ordered.bucket_of_mem ?_ hequiv
    rw [values_of_root hroot₁]
    exact Iterator.mem_of_value? hw
  refine ⟨write b₁ it (assign w), ?_, ⟨hok₂, ?_⟩, ?_, ?_⟩
  · unfold subscriptWrite subscript
    have hkey : insertUniqueKey P b k (generate k) = insertUnique P b (generate k) := by
      unfold insertUnique
      rw [hgenerate]
    rw [hkey, hinsert]
    simp only [Option.map_some, Option.bind_some, hw]
  · refine hb₁.ordered.congr ?_
    rw [hvalues₂, hwhole]
    simp only [List.map_append, List.map_cons, hassign]
  · rw [hwhole, StrictWeakOrder.bucket_insert, if_pos hequiv] at hbucket
    rw [← hnew, hvalues₂, StrictWeakOrder.bucket_insert, hassign, if_pos hequiv]
    have hlen := congrArg List.length hbucket
    simp only [List.length_append, List.length_singleton] at hlen
    have hbefore : P.order.bucket P.key k it.before = [] :=
      List.eq_nil_of_length_eq_zero (by omega)
    have hafter : P.order.bucket P.key k tail = [] := List.eq_nil_of_length_eq_zero (by omega)
    rw [hbefore, hafter]
    rfl
  · intro k' hk'
    have hw' : ¬P.order.Equivalent (P.key w) k' := fun h => hk' (hequiv.symm.trans h)
    have hb₁' : P.order.bucket P.key k' b₁.values = P.order.bucket P.key k' b.values := by
      rw [hvalues₁, StrictWeakOrder.bucket_insertNew, hgenerate, if_neg fun h => hk' h.1]
    rw [← hb₁', hvalues₂, hwhole, StrictWeakOrder.bucket_insert, StrictWeakOrder.bucket_insert,
      hassign, if_neg hw', if_neg hw']

end Write

/-! ## Repositories and indexes -/

/-- `btree_map_params` with `std::less`. -/
structure MapParams (Key Data : Type) [LinearOrder Key] extends BtreeParams Key (Key × Data) where
  key_eq : key = Prod.fst
  less_eq : keyCompare = .plain (.less Key)

section Repository

variable {Key Data : Type} [LinearOrder Key] {M : MapParams Key Data} {b : Btree (Key × Data)}

theorem order_less (M : MapParams Key Data) : M.toBtreeParams.order = .less Key := by
  unfold BtreeParams.order
  rw [M.less_eq]
  rfl

theorem strictlyOrdered_iff (M : MapParams Key Data) (l : List (Key × Data)) :
    M.order.StrictlyOrdered M.key l ↔ l.Pairwise fun e e' => e.1 < e'.1 := by
  unfold StrictWeakOrder.StrictlyOrdered
  rw [order_less, M.key_eq]
  simp only [StrictWeakOrder.less, decide_eq_true_eq]

theorem ordered_iff (M : MapParams Key Data) (l : List (Key × Data)) :
    M.order.Ordered M.key l ↔ l.Pairwise fun e e' => e.1 ≤ e'.1 := by
  unfold StrictWeakOrder.Ordered
  rw [order_less, M.key_eq]
  simp only [StrictWeakOrder.less, decide_eq_false_iff_not, not_lt]

end Repository

/-- `btree_map<int, Value>`, with nodes of five entries. -/
def smallMap : MapParams ℕ Value where
  key := Prod.fst
  keyCompare := .plain (.less ℕ)
  arithmeticKey := true
  kNodeTargetValues := 5
  fits := by decide
  key_eq := rfl
  less_eq := rfl

/-- Two entries in a leaf. -/
def smallMapBtree : Btree (ℕ × Value) := ⟨some ⟨0, ⟨3, (), [((1, [65]), ()), ((4, []), ())]⟩⟩, 0⟩

theorem smallMapBtree_ok : UniqueOk smallMap.toBtreeParams smallMapBtree := by
  refine ⟨⟨?_, ?_⟩, ?_⟩
  · rintro t ⟨⟩
    exact ⟨by decide, by decide, by decide, fun h => absurd rfl h, fun _ _ => trivial⟩
  · rintro t ⟨⟩ hheight
    exact absurd rfl hheight
  · rw [strictlyOrdered_iff]
    show List.Pairwise _ [((1 : ℕ), ([65] : Value)), (4, [])]
    decide

/-- **`map[key] = data` and `find`**: afterwards the entry of the key has the data, and every
other key has what it had. -/
theorem subscript_find {Key Data : Type} [LinearOrder Key] {M : MapParams Key Data}
    {b : Btree (Key × Data)} (hb : UniqueOk M.toBtreeParams b) (blank data : Data) (k : Key) :
    ∃ b', subscriptWrite M.toBtreeParams (fun k => (k, blank)) (fun e => (e.1, data)) b k
        = some b' ∧
      UniqueOk M.toBtreeParams b' ∧
      ∀ k', (findUnique M.toBtreeParams b' k').bind Iterator.value?
        = if k' = k then some (k, data)
          else (findUnique M.toBtreeParams b k').bind Iterator.value? := by
  have hequiv : ∀ a a' : Key, M.order.Equivalent a a' ↔ a = a' := by
    intro a a'
    rw [order_less]
    exact StrictWeakOrder.equivalent_less
  have hgenerate : ∀ k, M.key ((fun k => (k, blank)) k) = k := by
    intro k
    rw [M.key_eq]
  have hassign : ∀ e : Key × Data, M.key ((fun e : Key × Data => (e.1, data)) e) = M.key e := by
    intro e
    rw [M.key_eq]
  obtain ⟨b', hwrite, hb', hsame, hother⟩ := subscriptWrite_spec hb hgenerate hassign k
  refine ⟨b', hwrite, hb', fun k' => ?_⟩
  rw [(findUnique_spec hb' k').2, (findUnique_spec hb k').2]
  by_cases hk : k' = k
  · have hkey : ((M.order.bucket M.key k b.values).head?.getD (k, blank)).1 = k := by
      cases hhead : (M.order.bucket M.key k b.values).head? with
      | none => rfl
      | some e =>
          have he := StrictWeakOrder.mem_bucket.mp (List.mem_of_head? hhead)
          rw [hequiv, M.key_eq] at he
          exact he.2
    rw [if_pos hk, hk, hsame, List.head?_cons, hkey]
  · rw [if_neg hk, hother k' fun h => hk ((hequiv k k').mp h).symm]

theorem subscript_find_small :
    ∃ b', subscriptWrite smallMap.toBtreeParams (fun k => (k, [])) (fun e => (e.1, [66]))
        smallMapBtree 2 = some b' ∧
      UniqueOk smallMap.toBtreeParams b' ∧
      ∀ k', (findUnique smallMap.toBtreeParams b' k').bind Iterator.value?
        = if k' = 2 then some (2, [66])
          else (findUnique smallMap.toBtreeParams smallMapBtree k').bind Iterator.value? :=
  subscript_find smallMapBtree_ok [] [66] 2

/-- The repository whose container is a tree. -/
def repository {Key : Type} [LinearOrder Key] {M : MapParams Key Value} {b : Btree (Key × Value)}
    (hb : UniqueOk M.toBtreeParams b) : BasicRepository Key where
  container := b.values
  ordered := (strictlyOrdered_iff M b.values).mp hb.ordered

/-- The index whose container is a tree. -/
def index {Ikey Key : Type} [LinearOrder Ikey] {M : MapParams Ikey Key} {b : Btree (Ikey × Key)}
    (hb : MultiOk M.toBtreeParams b) : BasicIndex Ikey Key where
  container := b.values
  ordered := (ordered_iff M b.values).mp hb.ordered

/-- `stomanip::load` on the iterators of the container. -/
def loadTree {Key : Type} (b : Btree (Key × Value)) (start limit : ℕ) : Option (List UInt8) :=
  (loop (forEach (Stomanip.loadEntry start limit)) b b.begin b.end_ ⟨Stomanip.marker, 0, 0⟩).map
    Stomanip.LoadState.ss

section Refinement

variable {κ α : Type} {P : BtreeParams κ α} {b : Btree α}

theorem begin_validIn (hok : b.Ok P) : b.ValidIn b.begin ∧ beforeOf b.begin = [] := by
  unfold begin
  cases hroot : b.root with
  | none => exact ⟨validIn_none hroot, rfl⟩
  | some t =>
      obtain ⟨htree, hbefore, -, -⟩ := begin_spec (hok.root t hroot)
      exact ⟨validIn_some (hroot.trans (congrArg some htree.symm)) (begin_valid (hok.root t hroot)),
        hbefore⟩

theorem beforeOf_end (b : Btree α) : beforeOf b.end_ = b.values := by
  unfold end_ values
  cases b.root with
  | none => rfl
  | some t => exact (end_spec t).2.1

/-- The values between two iterators, by their positions. -/
theorem between_positions {first last : Option (Iterator α)} (hfirst : b.ValidIn first)
    (hlast : b.ValidIn last) (hle : (beforeOf first).length ≤ (beforeOf last).length) :
    beforeOf last = beforeOf first ++
      (b.values.take (beforeOf last).length).drop (beforeOf first).length := by
  have htake : b.values.take (beforeOf last).length = beforeOf last := by
    rw [hlast.values_eq, List.take_left]
  have hprefix : beforeOf first = (beforeOf last).take (beforeOf first).length := by
    rw [← htake, List.take_take, Nat.min_eq_left hle, hfirst.values_eq, List.take_left]
  rw [htake]
  conv_lhs => rw [← List.take_append_drop (beforeOf first).length (beforeOf last), ← hprefix]

end Refinement

section Repository

variable {Key : Type} [LinearOrder Key] {M : MapParams Key Value} {b : Btree (Key × Value)}

/-- **Positions in a repository are iterators of its tree**: a loop between two iterators goes
through the entries between their positions. -/
theorem repository_walk (hb : UniqueOk M.toBtreeParams b)
    {first last : Option (Iterator (Key × Value))} (hfirst : b.ValidIn first)
    (hlast : b.ValidIn last) (hle : (beforeOf first).length ≤ (beforeOf last).length)
    (f : σ → Key × Value → σ) (s : σ) :
    loop (forEach f) b first last s
      = some ((ContainerIterators.visited (repository hb).container (beforeOf first).length
          (beforeOf last).length).foldl f s) :=
  loop_forEach hb.ok hfirst hlast (between_positions hfirst hlast hle) s

/-- And so are the positions that count from the back, with reverse iterators. -/
theorem repository_walk_back (hb : UniqueOk M.toBtreeParams b)
    {first last : Option (Iterator (Key × Value))} (hfirst : b.ValidIn first)
    (hlast : b.ValidIn last) (hle : (beforeOf first).length ≤ (beforeOf last).length)
    (f : σ → Key × Value → σ) (s : σ) :
    loop (forEachBack f) b last first s
      = some ((ContainerIterators.visited (repository hb).container.reverse
          (b.values.length - (beforeOf last).length)
          (b.values.length - (beforeOf first).length)).foldl f s) := by
  refine loop_forEachBack hb.ok hlast hfirst ?_ s
  have hvisited : ContainerIterators.visited b.values.reverse
      (b.values.length - (beforeOf last).length) (b.values.length - (beforeOf first).length)
      = ((b.values.take (beforeOf last).length).drop (beforeOf first).length).reverse := by
    have hlen := congrArg List.length hlast.values_eq
    rw [List.length_append] at hlen
    have hlow : b.values.length - (b.values.length - (beforeOf first).length)
        = (beforeOf first).length := by omega
    have hhigh : b.values.length - (beforeOf first).length
        - (b.values.length - (beforeOf last).length)
        = (beforeOf last).length - (beforeOf first).length := by omega
    unfold ContainerIterators.visited
    rw [List.take_reverse, List.drop_reverse, List.length_drop, hlow, hhigh, List.drop_take]
  show _ = _ ++ (ContainerIterators.visited b.values.reverse _ _).reverse
  rw [hvisited, List.reverse_reverse]
  exact between_positions hfirst hlast hle

/-- Over both entries, last entry first. -/
theorem repository_walk_back_small :
    loop (forEachBack fun l e => l ++ [e]) smallMapBtree smallMapBtree.end_ smallMapBtree.begin []
      = some ((ContainerIterators.visited (repository smallMapBtree_ok).container.reverse
          (smallMapBtree.values.length - (beforeOf smallMapBtree.end_).length)
          (smallMapBtree.values.length - (beforeOf smallMapBtree.begin).length)).foldl
            (fun l e => l ++ [e]) []) :=
  repository_walk_back smallMapBtree_ok (begin_validIn smallMapBtree_ok.ok).1
    (end_validIn smallMapBtree) (by decide) (fun l e => l ++ [e]) []

/-- **A page loaded by iterators** is the page of the repository. -/
theorem loadTree_eq (hb : UniqueOk M.toBtreeParams b) (start limit : ℕ) :
    loadTree b start limit = some (Stomanip.load (repository hb) start limit) := by
  obtain ⟨hbegin, hbefore⟩ := begin_validIn hb.ok
  have hwalk := repository_walk hb hbegin (end_validIn b) (by rw [hbefore]; exact Nat.zero_le _)
    (Stomanip.loadEntry start limit) ⟨Stomanip.marker, 0, 0⟩
  rw [hbefore, beforeOf_end] at hwalk
  unfold loadTree
  rw [hwalk]
  rfl

theorem loadTree_eq_small :
    loadTree smallMapBtree 1 1 = some (Stomanip.load (repository smallMapBtree_ok) 1 1) :=
  loadTree_eq smallMapBtree_ok 1 1

/-- **`del(key)`** on the tree takes the entry of the key out of the repository. -/
theorem repository_del (hb : UniqueOk M.toBtreeParams b) (k : Key) :
    ∃ b' n, eraseUnique M.toBtreeParams b k = some (b', n) ∧
      ∃ hb' : UniqueOk M.toBtreeParams b', (repository hb').container
        = (repository hb).container.filter fun e => e.1 ≠ k := by
  obtain ⟨b', herase, hb', hvalues⟩ := eraseUnique_spec hb k
  refine ⟨b', _, herase, hb', hvalues.trans ?_⟩
  unfold StrictWeakOrder.eraseKey
  refine List.filter_congr fun e _ => ?_
  rw [order_less, M.key_eq]
  simp only [StrictWeakOrder.equivalent_less, decide_not]

theorem repository_del_small :
    ∃ b' n, eraseUnique smallMap.toBtreeParams smallMapBtree 4 = some (b', n) ∧
      ∃ hb' : UniqueOk smallMap.toBtreeParams b', (repository hb').container
        = (repository smallMapBtree_ok).container.filter fun e => e.1 ≠ 4 :=
  repository_del smallMapBtree_ok 4

end Repository

/-- **Every repository is kept in a tree**: the one that its entries have been inserted into. -/
theorem exists_repository {Key : Type} [LinearOrder Key] (M : MapParams Key Value)
    (storage : BasicRepository Key) :
    ∃ b, insertUniqueRange M.toBtreeParams empty storage.container = some b ∧
      ∃ hb : UniqueOk M.toBtreeParams b, repository hb = storage := by
  obtain ⟨b, hinsert, hb, hvalues⟩ :=
    insertUniqueRange_spec (uniqueOk_empty M.toBtreeParams) storage.container
  have hsorted := (strictlyOrdered_iff M storage.container).mpr storage.ordered
  have hall : b.values = storage.container :=
    hvalues.trans (StrictWeakOrder.foldl_insertNew (l := []) hsorted)
  refine ⟨b, hinsert, hb, ?_⟩
  cases storage
  simp only [repository, hall]

/-- **Every index is kept in a tree** with equal keys. -/
theorem exists_index {Ikey Key : Type} [LinearOrder Ikey] (M : MapParams Ikey Key)
    (storage : BasicIndex Ikey Key) :
    ∃ b, insertMultiRange M.toBtreeParams empty storage.container = some b ∧
      ∃ hb : MultiOk M.toBtreeParams b, index hb = storage := by
  obtain ⟨b, hinsert, hb, hvalues⟩ :=
    insertMultiRange_spec (multiOk_empty M.toBtreeParams) storage.container
  have hsorted := (ordered_iff M storage.container).mpr storage.ordered
  have hall : b.values = storage.container :=
    hvalues.trans (StrictWeakOrder.foldl_insertLast (l := []) hsorted)
  refine ⟨b, hinsert, hb, ?_⟩
  cases storage
  simp only [index, hall]

end Btree
