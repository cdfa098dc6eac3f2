/-
# Sequences of calls on a B-tree (`storage/btree/btree_container.h`)

A `btree_map` or a `btree_multimap` and a user of it, as a machine whose steps are the calls of the
member functions; what these return is kept beside the tree.  Iterators are not kept from one call
to the next, since an insertion or an erasure invalidates them, but taken anew (`Place`).

The other machine (`ListState`) has just a list of values in the order of their keys.

* `lookups_agree` : `find`, `count` and the bounds of a key go together;
* `step_refines` : what a call does to the tree and returns is what it does to the list;
* `run_refines`, `run_new` : so it is for every sequence of calls, and no assertion of the B-tree
  fails in it;
* `run_always` : after each call the tree passes `verify`, and is balanced;
* `run_independent` : how large the nodes are and how they are searched makes no difference;
* `run_bucket` : what there is under a key depends on the calls for this key only.
-/
import Atlasdb.BtreeContainer
import Atlasdb.StepRun

namespace Btree

open BtreeSearch

variable {κ α : Type}

/-- `btree_map` or `btree_multimap` -/
inductive Kind where
  | unique
  | multi
  deriving DecidableEq, Repr

/-- An iterator, by how it is found. -/
inductive Place (κ : Type) where
  | begin
  | end_
  | lowerBound (k : κ)
  | upperBound (k : κ)
  | find (k : κ)
  | next (p : Place κ)
  | prev (p : Place κ)
  deriving Repr

/-- A call of a member function, or a loop between two iterators. -/
inductive Call (κ α : Type) where
  | insert (v : α)
  | insertAt (p : Place κ) (v : α)
  | insertRange (vs : List α)
  | erase (k : κ)
  | eraseAt (p : Place κ)
  | eraseRange (p q : Place κ)
  | count (k : κ)
  | read (p : Place κ)
  | forward (p q : Place κ)
  | backward (q p : Place κ)
  | size
  | verify
  | clear
  | copy
  deriving Repr

/-- What a call returns; of an iterator, the value it points at. -/
inductive Reply (α : Type) where
  | done
  | pointer (v : Option α)
  | inserted (v : Option α) (new : Bool)
  | number (n : ℕ)
  | values (l : List α)
  deriving DecidableEq, Repr

section Machine

variable (P : BtreeParams κ α) (kind : Kind)

/-! ## The tree -/

/-- `insert(v)` -/
def insertBy (b : Btree α) (v : α) : Option (Btree α × Option (Iterator α) × Bool) :=
  match kind with
  | .unique => insertUnique P b v
  | .multi => (insertMulti P b v).map fun r => (r.1, r.2, true)

/-- `insert(position, v)` -/
def insertAtBy (b : Btree α) (position : Option (Iterator α)) (v : α) :
    Option (Btree α × Option (Iterator α)) :=
  match kind with
  | .unique => insertUniqueHint P b position v
  | .multi => insertMultiHint P b position v

/-- `insert(b, e)` -/
def insertRangeBy (b : Btree α) (vs : List α) : Option (Btree α) :=
  match kind with
  | .unique => insertUniqueRange P b vs
  | .multi => insertMultiRange P b vs

/-- `erase(key)` -/
def eraseBy (b : Btree α) (k : κ) : Option (Btree α × ℕ) :=
  match kind with
  | .unique => eraseUnique P b k
  | .multi => eraseMulti P b k

/-- `find(key)` -/
def findBy (b : Btree α) (k : κ) : Option (Iterator α) :=
  match kind with
  | .unique => findUnique P b k
  | .multi => findMulti P b k

/-- `count(key)` -/
def countBy (b : Btree α) (k : κ) : Option ℕ :=
  match kind with
  | .unique => some (countUnique P b k)
  | .multi => countMulti P b k

/-- The iterator at a place. -/
def Place.iterator (b : Btree α) : Place κ → Option (Iterator α)
  | .begin => b.begin
  | .end_ => b.end_
  | .lowerBound k => lowerBoundIn P b k
  | .upperBound k => upperBoundIn P b k
  | .find k => findBy P kind b k
  | .next p => (Place.iterator b p).map increment
  | .prev p => (Place.iterator b p).bind decrement

/-- The tree, and what the calls have returned. -/
structure TreeState (α : Type) where
  tree : Btree α
  replies : List (Reply α)

/-- A call on the tree. -/
def call (b : Btree α) : Call κ α → Option (Btree α × Reply α)
  | .insert v => (insertBy P kind b v).map fun r =>
      (r.1, .inserted (r.2.1.bind Iterator.value?) r.2.2)
  | .insertAt p v => (insertAtBy P kind b (p.iterator P kind b) v).map fun r =>
      (r.1, .pointer (r.2.bind Iterator.value?))
  | .insertRange vs => (insertRangeBy P kind b vs).map fun b' => (b', .done)
  | .erase k => (eraseBy P kind b k).map fun r => (r.1, .number r.2)
  | .eraseAt p => (p.iterator P kind b).bind fun it => (Btree.erase P b it).map fun r =>
      (r.1, .pointer (r.2.bind Iterator.value?))
  | .eraseRange p q =>
      (Btree.eraseRange P b (p.iterator P kind b) (q.iterator P kind b)).map fun r =>
        (r.1, .number r.2)
  | .count k => (countBy P kind b k).map fun n => (b, .number n)
  | .read p => ((p.iterator P kind b).bind Iterator.value?).map fun v => (b, .pointer (some v))
  | .forward p q =>
      (loop (forEach fun l v => l ++ [v]) b (p.iterator P kind b) (q.iterator P kind b) []).map
        fun l => (b, .values l)
  | .backward q p =>
      (loop (forEachBack fun l v => l ++ [v]) b (q.iterator P kind b) (p.iterator P kind b) []).map
        fun l => (b, .values l)
  | .size => some (b, .number b.size)
  | .verify => if Btree.verify P b then some (b, .done) else none
  | .clear => some (empty, .done)
  | .copy => (assign P b).map fun b' => (b', .done)

/-- One step of the machine. -/
def step (s : TreeState α) (c : Call κ α) : Option (TreeState α) :=
  (call P kind s.tree c).map fun r => ⟨r.1, s.replies ++ [r.2]⟩

/-! ## The list -/

/-- The number of values before a place. -/
def Place.rank (l : List α) : Place κ → ℕ
  | .begin => 0
  | .end_ => l.length
  | .lowerBound k => (l.takeWhile (P.order.below P.key k)).length
  | .upperBound k => (l.takeWhile (P.order.upTo P.key k)).length
  | .find k =>
      if (P.order.bucket P.key k l).isEmpty then l.length
      else (l.takeWhile (P.order.below P.key k)).length
  | .next p => Place.rank l p + 1
  | .prev p => Place.rank l p - 1

/-- `++` is used before the end only, and `--` after the beginning. -/
def Place.Allowed (l : List α) : Place κ → Prop
  | .next p => Place.Allowed l p ∧ p.rank P l < l.length
  | .prev p => Place.Allowed l p ∧ 0 < p.rank P l
  | _ => True

instance Place.Allowed.decidable (l : List α) : ∀ p : Place κ, Decidable (p.Allowed P l)
  | .next p =>
      have := Place.Allowed.decidable l p
      inferInstanceAs (Decidable (p.Allowed P l ∧ p.rank P l < l.length))
  | .prev p =>
      have := Place.Allowed.decidable l p
      inferInstanceAs (Decidable (p.Allowed P l ∧ 0 < p.rank P l))
  | .begin => isTrue trivial
  | .end_ => isTrue trivial
  | .lowerBound _ => isTrue trivial
  | .upperBound _ => isTrue trivial
  | .find _ => isTrue trivial

/-- The list, and what the calls return. -/
structure ListState (α : Type) where
  list : List α
  replies : List (Reply α)

/-- A call on the list. -/
def listCall (l : List α) : Call κ α → List α × Reply α
  | .insert v =>
      match kind with
      | .unique => (P.order.insertNew P.key v l,
          .inserted (some ((P.order.bucket P.key (P.key v) l).head?.getD v))
            (P.order.bucket P.key (P.key v) l).isEmpty)
      | .multi => (P.order.insertLast P.key v l, .inserted (some v) true)
  | .insertAt p v =>
      match kind with
      | .unique => (P.order.insertNew P.key v l,
          .pointer (some ((P.order.bucket P.key (P.key v) l).head?.getD v)))
      | .multi => (P.order.insertHinted P.key (p.rank P l) v l, .pointer (some v))
  | .insertRange vs =>
      match kind with
      | .unique => (vs.foldl (fun l v => P.order.insertNew P.key v l) l, .done)
      | .multi => (vs.foldl (fun l v => P.order.insertLast P.key v l) l, .done)
  | .erase k => (P.order.eraseKey P.key k l, .number (P.order.bucket P.key k l).length)
  | .eraseAt p => (l.take (p.rank P l) ++ l.drop (p.rank P l + 1), .pointer l[p.rank P l + 1]?)
  | .eraseRange p q =>
      (l.take (p.rank P l) ++ l.drop (q.rank P l), .number (q.rank P l - p.rank P l))
  | .count k => (l, .number (P.order.bucket P.key k l).length)
  | .read p => (l, .pointer l[p.rank P l]?)
  | .forward p q => (l, .values ((l.take (q.rank P l)).drop (p.rank P l)))
  | .backward q p => (l, .values ((l.take (q.rank P l)).drop (p.rank P l)).reverse)
  | .size => (l, .number l.length)
  | .verify => (l, .done)
  | .clear => ([], .done)
  | .copy => (l, .done)

/-- One step on the list. -/
def listStep (s : ListState α) (c : Call κ α) : ListState α :=
  ⟨(listCall P kind s.list c).1, s.replies ++ [(listCall P kind s.list c).2]⟩

/-- What the caller has to see to: an iterator that is read or erased at is not the end, and the
first of two is not after the second. -/
def Call.Allowed (l : List α) : Call κ α → Prop
  | .insertAt p _ => p.Allowed P l
  | .eraseAt p => p.Allowed P l ∧ p.rank P l < l.length
  | .eraseRange p q => p.Allowed P l ∧ q.Allowed P l ∧ p.rank P l ≤ q.rank P l
  | .read p => p.Allowed P l ∧ p.rank P l < l.length
  | .forward p q => p.Allowed P l ∧ q.Allowed P l ∧ p.rank P l ≤ q.rank P l
  | .backward q p => p.Allowed P l ∧ q.Allowed P l ∧ p.rank P l ≤ q.rank P l
  | _ => True

instance Call.Allowed.decidable (l : List α) : ∀ c : Call κ α, Decidable (c.Allowed P l)
  | .insertAt p _ => inferInstanceAs (Decidable (p.Allowed P l))
  | .eraseAt p => inferInstanceAs (Decidable (p.Allowed P l ∧ p.rank P l < l.length))
  | .eraseRange p q =>
      inferInstanceAs (Decidable (p.Allowed P l ∧ q.Allowed P l ∧ p.rank P l ≤ q.rank P l))
  | .read p => inferInstanceAs (Decidable (p.Allowed P l ∧ p.rank P l < l.length))
  | .forward p q =>
      inferInstanceAs (Decidable (p.Allowed P l ∧ q.Allowed P l ∧ p.rank P l ≤ q.rank P l))
  | .backward q p =>
      inferInstanceAs (Decidable (p.Allowed P l ∧ q.Allowed P l ∧ p.rank P l ≤ q.rank P l))
  | .insert _ => isTrue trivial
  | .insertRange _ => isTrue trivial
  | .erase _ => isTrue trivial
  | .count _ => isTrue trivial
  | .size => isTrue trivial
  | .verify => isTrue trivial
  | .clear => isTrue trivial
  | .copy => isTrue trivial

/-- The invariant of the tree. -/
def KindOk (b : Btree α) : Prop :=
  match kind with
  | .unique => UniqueOk P b
  | .multi => MultiOk P b

/-- The tree has the values of the list, and has returned the same. -/
structure Refines (s : TreeState α) (t : ListState α) : Prop where
  ok : KindOk P kind s.tree
  values : s.tree.values = t.list
  replies : s.replies = t.replies

end Machine

section Run

variable {P : BtreeParams κ α} {kind : Kind} {b : Btree α}

/-! ## Places -/

theorem KindOk.multiOk (hb : KindOk P kind b) : MultiOk P b := by
  cases kind with
  | unique => exact UniqueOk.multiOk hb
  | multi => exact hb

theorem kindOk_empty (P : BtreeParams κ α) (kind : Kind) : KindOk P kind (empty : Btree α) := by
  cases kind with
  | unique => exact uniqueOk_empty P
  | multi => exact multiOk_empty P

/-- Taking values out keeps the invariant. -/
theorem KindOk.of_sublist {b' : Btree α} (hb : KindOk P kind b) (hok : b'.Ok P)
    (hsub : b'.values.Sublist b.values) : KindOk P kind b' := by
  cases kind with
  | unique => exact ⟨hok, List.Pairwise.sublist hsub (UniqueOk.ordered hb)⟩
  | multi => exact MultiOk.of_sublist hb hok hsub

/-- What an iterator points at. -/
theorem ValidIn.value?_eq {position : Option (Iterator α)} (hposition : b.ValidIn position) :
    position.bind Iterator.value? = b.values[(beforeOf position).length]? := by
  rw [hposition.values_eq, List.getElem?_append_right (Nat.le_refl _), Nat.sub_self]
  obtain ⟨-, hvalid⟩ := hposition
  cases position with
  | none => rfl
  | some it =>
      show it.value? = it.rest[0]?
      cases hrest : it.rest with
      | nil =>
          cases hv : it.value? with
          | none => rfl
          | some w =>
              obtain ⟨tail, htail⟩ := Iterator.rest_of_value? hv
              rw [hrest] at htail
              cases htail
      | cons w tail => exact (hvalid it rfl).normal.value? hrest

/-- Before the end there is a value. -/
theorem ValidIn.exists_value {position : Option (Iterator α)} (hposition : b.ValidIn position)
    (hlt : (beforeOf position).length < b.values.length) :
    ∃ it w, position = some it ∧ b.root = some it.tree ∧ it.Valid ∧ it.value? = some w ∧
      b.values[it.before.length]? = some w := by
  have hvalue := hposition.value?_eq
  obtain ⟨hmap, hvalid⟩ := hposition
  rw [List.getElem?_eq_getElem hlt] at hvalue
  cases position with
  | none => cases hvalue
  | some it =>
      refine ⟨it, _, rfl, hmap.symm, hvalid it rfl, hvalue, ?_⟩
      exact List.getElem?_eq_getElem hlt

/-- A cut stands at the number of values that pass the test. -/
theorem rank_of_cut {p : α → Bool} {position : Option (Iterator α)}
    (hposition : b.ValidIn position) (hcut : IsCut p (beforeOf position) (restOf position)) :
    (beforeOf position).length = (b.values.takeWhile p).length := by
  rw [hposition.values_eq, ← hcut.eq_while.1]

/-- Where `find` ends, for a tree with or without equal keys. -/
theorem found_place {t : Tree α} {k : κ} {res : Option (Iterator α)} (hroot : b.root = some t)
    (hfound : Found P k t res) :
    b.ValidIn (some (internalEnd t res)) ∧
      (beforeOf (some (internalEnd t res))).length = Place.rank P b.values (.find k) := by
  unfold Place.rank
  cases res with
  | none =>
      have hnil : P.order.bucket P.key k b.values = [] := by
        rw [values_of_root hroot]
        exact StrictWeakOrder.bucket_eq_nil.mpr hfound
      rw [hnil, List.isEmpty_nil, if_pos rfl, values_of_root hroot]
      refine ⟨validIn_some (hroot.trans (congrArg some (end_spec t).1.symm)) (end_valid t), ?_⟩
      exact congrArg List.length (end_spec t).2.1
  | some it =>
      obtain ⟨⟨htree, hcut⟩, w, hw, hequiv⟩ := hfound
      have hvalid : b.ValidIn (some it) := validIn_some (hroot.trans (congrArg some htree.symm))
        (Or.inl (Iterator.Pointing.of_value? hw))
      have hne : ¬(P.order.bucket P.key k b.values).isEmpty = true := by
        rw [List.isEmpty_iff, StrictWeakOrder.bucket_eq_nil]
        refine fun hnone => hnone w ?_ hequiv
        rw [values_of_root hroot, ← htree]
        exact Iterator.mem_of_value? hw
      rw [if_neg hne]
      exact ⟨hvalid, rank_of_cut hvalid hcut⟩

theorem findBy_place (hb : KindOk P kind b) (k : κ) :
    b.ValidIn (findBy P kind b k) ∧
      (beforeOf (findBy P kind b k)).length = Place.rank P b.values (.find k) := by
  have hnone : b.root = none → b.ValidIn none ∧
      (beforeOf (none : Option (Iterator α))).length = Place.rank P b.values (.find k) := by
    intro hroot
    have hnil : b.values = [] := values_of_none hroot
    rw [hnil]
    exact ⟨validIn_none hroot, rfl⟩
  have hmulti := hb.multiOk
  unfold findBy
  cases kind with
  | unique =>
      show b.ValidIn (findUnique P b k) ∧ _
      unfold findUnique
      cases hroot : b.root with
      | none => exact hnone hroot
      | some t =>
          have hord := UniqueOk.ordered hb
          rw [values_of_root hroot] at hord
          exact found_place hroot (internalFindUnique_spec (hmulti.ok.root t hroot) hord k)
  | multi =>
      show b.ValidIn (findMulti P b k) ∧ _
      unfold findMulti
      cases hroot : b.root with
      | none => exact hnone hroot
      | some t =>
          have hord := hmulti.ordered
          rw [values_of_root hroot] at hord
          exact found_place hroot (internalFindMulti_spec (hmulti.ok.root t hroot) hord k)

/-- **Where the places are**: the iterator is one of the tree, with as many values before it as the
place has in the list. -/
theorem place_spec (hb : KindOk P kind b) (p : Place κ) (hp : p.Allowed P b.values) :
    b.ValidIn (p.iterator P kind b) ∧
      (beforeOf (p.iterator P kind b)).length = p.rank P b.values := by
  have hmulti := hb.multiOk
  induction p with
  | begin =>
      obtain ⟨hvalid, hbefore⟩ := begin_validIn hmulti.ok
      exact ⟨hvalid, congrArg List.length hbefore⟩
  | end_ => exact ⟨end_validIn b, congrArg List.length (beforeOf_end b)⟩
  | lowerBound k =>
      obtain ⟨hvalid, hcut⟩ := lowerBoundIn_spec hmulti k
      exact ⟨hvalid, rank_of_cut hvalid hcut⟩
  | upperBound k =>
      obtain ⟨hvalid, hcut⟩ := upperBoundIn_spec hmulti k
      exact ⟨hvalid, rank_of_cut hvalid hcut⟩
  | find k => exact findBy_place hb k
  | next p ih =>
      obtain ⟨hp, hlt⟩ := hp
      obtain ⟨hvalid, hrank⟩ := ih hp
      -- the place is not the last one, so there is a value at it
      obtain ⟨it, w, hit, hroot, hvalid', hw, -⟩ := hvalid.exists_value (by rw [hrank]; exact hlt)
      obtain ⟨htree, hbefore, -⟩ := increment_spec hw
      rw [hit] at hrank
      unfold Place.iterator Place.rank
      rw [hit, ← hrank]
      refine ⟨validIn_some (hroot.trans (congrArg some htree.symm))
        (increment_valid (hmulti.ok.root _ hroot) (Iterator.Pointing.of_value? hw)), ?_⟩
      show (increment it).before.length = it.before.length + 1
      rw [hbefore, List.length_append, List.length_singleton]
  | prev p ih =>
      obtain ⟨hp, hpos⟩ := hp
      obtain ⟨hvalid, hrank⟩ := ih hp
      -- nor the first one, so there is a step back
      unfold Place.iterator Place.rank
      rw [← hrank] at hpos ⊢
      cases hit : p.iterator P kind b with
      | none =>
          rw [hit] at hpos
          exact absurd hpos (Nat.lt_irrefl 0)
      | some it =>
          rw [hit] at hvalid hpos
          have hroot : b.root = some it.tree := hvalid.1.symm
          have hspec := decrement_spec (hmulti.ok.root _ hroot) (hvalid.2 it rfl).position_le
          rw [Option.bind_some]
          cases hdec : decrement it with
          | none =>
              rw [hdec] at hspec
              change 0 < it.before.length at hpos
              rw [show it.before = [] from hspec] at hpos
              exact absurd hpos (Nat.lt_irrefl 0)
          | some prev =>
              rw [hdec] at hspec
              obtain ⟨htree, v, hv, hbefore, -⟩ := hspec
              refine ⟨validIn_some (hroot.trans (congrArg some htree.symm))
                (Or.inl (Iterator.Pointing.of_value? hv)), ?_⟩
              show prev.before.length = it.before.length - 1
              rw [hbefore, List.length_append, List.length_singleton, Nat.add_sub_cancel]

/-! ## Calls -/

/-- What a call has to do: what it does to the list, and the same reply. -/
def CallOk (P : BtreeParams κ α) (kind : Kind) (b : Btree α) (c : Call κ α) : Prop :=
  ∃ b', call P kind b c = some (b', (listCall P kind b.values c).2) ∧ KindOk P kind b' ∧
    b'.values = (listCall P kind b.values c).1

theorem insert_ok (hb : KindOk P kind b) (v : α) : CallOk P kind b (.insert v) := by
  cases kind with
  | unique =>
      obtain ⟨b', it, w, hinsert, hb', hvalues, -, hw, -, rfl⟩ := insertUnique_spec hb v
      refine ⟨b', ?_, hb', hvalues⟩
      show (insertUnique P b v).map _ = _
      rw [hinsert, Option.map_some, Option.bind_some, hw]
      rfl
  | multi =>
      obtain ⟨b', it, hinsert, hinserted, hvalues⟩ := insertMulti_spec hb v
      refine ⟨b', ?_, hinserted.multiOk, hvalues⟩
      show ((insertMulti P b v).map _).map _ = _
      rw [hinsert, Option.map_some, Option.map_some, Option.bind_some, hinserted.value]
      rfl

theorem insertAt_ok (hb : KindOk P kind b) (p : Place κ) (v : α) (hp : p.Allowed P b.values) :
    CallOk P kind b (.insertAt p v) := by
  obtain ⟨hvalid, hrank⟩ := place_spec hb p hp
  cases kind with
  | unique =>
      obtain ⟨b', it, w, hinsert, hb', hvalues, -, hw, -, rfl⟩ := insertUnique_spec hb v
      refine ⟨b', ?_, hb', hvalues⟩
      show (insertUniqueHint P b (p.iterator P .unique b) v).map _ = _
      rw [insertUniqueHint_eq hb hvalid, hinsert, Option.map_some, Option.map_some,
        Option.bind_some, hw]
      rfl
  | multi =>
      obtain ⟨b', it, hinsert, hinserted, hvalues⟩ := insertMultiHint_spec hb hvalid v
      refine ⟨b', ?_, hinserted.multiOk, ?_⟩
      · show (insertMultiHint P b (p.iterator P .multi b) v).map _ = _
        rw [hinsert, Option.map_some, Option.bind_some, hinserted.value]
        rfl
      · rw [hvalues]
        show P.order.insertHinted P.key _ v b.values = P.order.insertHinted P.key _ v b.values
        rw [← hrank]
        cases p.iterator P .multi b <;> rfl

theorem insertRange_ok (hb : KindOk P kind b) (vs : List α) :
    CallOk P kind b (.insertRange vs) := by
  cases kind with
  | unique =>
      obtain ⟨b', hinsert, hb', hvalues⟩ := insertUniqueRange_spec hb vs
      refine ⟨b', ?_, hb', hvalues⟩
      show (insertUniqueRange P b vs).map _ = _
      rw [hinsert]
      rfl
  | multi =>
      obtain ⟨b', hinsert, hb', hvalues⟩ := insertMultiRange_spec hb vs
      refine ⟨b', ?_, hb', hvalues⟩
      show (insertMultiRange P b vs).map _ = _
      rw [hinsert]
      rfl

theorem erase_ok (hb : KindOk P kind b) (k : κ) : CallOk P kind b (.erase k) := by
  cases kind with
  | unique =>
      obtain ⟨b', herase, hb', hvalues⟩ := eraseUnique_spec hb k
      refine ⟨b', ?_, hb', hvalues⟩
      show (eraseUnique P b k).map _ = _
      rw [herase]
      rfl
  | multi =>
      obtain ⟨b', herase, hb', hvalues⟩ := eraseMulti_spec hb k
      refine ⟨b', ?_, hb', hvalues⟩
      show (eraseMulti P b k).map _ = _
      rw [herase]
      rfl

theorem countBy_eq (hb : KindOk P kind b) (k : κ) :
    countBy P kind b k = some (P.order.bucket P.key k b.values).length := by
  cases kind with
  | unique => exact congrArg some (countUnique_spec hb k)
  | multi => exact countMulti_spec hb k

theorem count_ok (hb : KindOk P kind b) (k : κ) : CallOk P kind b (.count k) := by
  refine ⟨b, ?_, hb, rfl⟩
  show (countBy P kind b k).map _ = _
  rw [countBy_eq hb]
  rfl

theorem eraseAt_ok (hb : KindOk P kind b) (p : Place κ) (hp : p.Allowed P b.values)
    (hlt : p.rank P b.values < b.values.length) : CallOk P kind b (.eraseAt p) := by
  obtain ⟨hvalid, hrank⟩ := place_spec hb p hp
  obtain ⟨it, w, hit, -, hvalid', hw, -⟩ := hvalid.exists_value (by rw [hrank]; exact hlt)
  rw [hit] at hvalid hrank
  obtain ⟨tail, htail⟩ := Iterator.rest_of_value? hw
  have hwhole : b.values = it.before ++ w :: tail := by
    rw [hvalid.values_eq]
    show it.before ++ it.rest = _
    rw [htail]
  obtain ⟨b', res, herase, hb', hres, hbefore, hrest⟩ := erase_step hb.multiOk hvalid
    (by rw [htail]; exact List.cons_ne_nil w tail)
  rw [htail, List.tail_cons] at hrest
  have hvalues : b'.values = it.before ++ tail := by rw [hres.values_eq, hbefore, hrest]
  change it.before.length = _ at hrank
  refine ⟨b', ?_, ?_, ?_⟩
  · have hnext : res.bind Iterator.value? = b.values[p.rank P b.values + 1]? := by
      rw [← hrank, hres.value?_eq, hbefore, hvalues, hwhole,
        List.getElem?_append_right (Nat.le_refl _),
        List.getElem?_append_right (Nat.le_add_right _ 1), Nat.sub_self,
        Nat.add_sub_cancel_left, List.getElem?_cons_succ]
    show (p.iterator P kind b).bind _ = _
    rw [hit, Option.bind_some, herase, Option.map_some, hnext]
    rfl
  · refine hb.of_sublist hb'.ok ?_
    rw [hvalues, hwhole]
    exact (List.sublist_cons_self w tail).append_left _
  · show b'.values = b.values.take (p.rank P b.values) ++ b.values.drop (p.rank P b.values + 1)
    rw [hvalues, ← hrank, hwhole, List.take_left, List.drop_append,
      List.drop_eq_nil_of_le (Nat.le_succ _), Nat.add_sub_cancel_left]
    rfl

/-- The values between two places. -/
theorem between_places (hb : KindOk P kind b) {p q : Place κ} (hp : p.Allowed P b.values)
    (hq : q.Allowed P b.values) (hle : p.rank P b.values ≤ q.rank P b.values) :
    beforeOf (q.iterator P kind b) = beforeOf (p.iterator P kind b) ++
      (b.values.take (q.rank P b.values)).drop (p.rank P b.values) := by
  obtain ⟨hvalid, hrank⟩ := place_spec hb p hp
  obtain ⟨hvalid', hrank'⟩ := place_spec hb q hq
  rw [← hrank, ← hrank'] at hle ⊢
  exact between_positions hvalid hvalid' hle

theorem eraseRange_ok (hb : KindOk P kind b) {p q : Place κ} (hp : p.Allowed P b.values)
    (hq : q.Allowed P b.values) (hle : p.rank P b.values ≤ q.rank P b.values) :
    CallOk P kind b (.eraseRange p q) := by
  obtain ⟨hvalid, hrank⟩ := place_spec hb p hp
  obtain ⟨hvalid', hrank'⟩ := place_spec hb q hq
  obtain ⟨b', herase, hb', hvalues⟩ := Btree.eraseRange_spec hb.multiOk hvalid hvalid'
    (between_places hb hp hq hle)
  have hbefore : beforeOf (p.iterator P kind b) = b.values.take (p.rank P b.values) := by
    rw [← hrank, hvalid.values_eq, List.take_left]
  have hrest : restOf (q.iterator P kind b) = b.values.drop (q.rank P b.values) := by
    rw [← hrank', hvalid'.values_eq, List.drop_left]
  rw [hbefore, hrest] at hvalues
  have hlen : q.rank P b.values ≤ b.values.length := by
    rw [← hrank', hvalid'.values_eq, List.length_append]
    exact Nat.le_add_right _ _
  refine ⟨b', ?_, ?_, hvalues⟩
  · show (Btree.eraseRange P b _ _).map _ = _
    rw [herase, Option.map_some, List.length_drop, List.length_take, Nat.min_eq_left hlen]
    rfl
  · refine hb.of_sublist hb'.ok ?_
    have hsub := (List.drop_sublist_drop_left b.values hle).append_left
      (b.values.take (p.rank P b.values))
    rw [List.take_append_drop] at hsub
    rwa [hvalues]

theorem read_ok (hb : KindOk P kind b) (p : Place κ) (hp : p.Allowed P b.values)
    (hlt : p.rank P b.values < b.values.length) : CallOk P kind b (.read p) := by
  obtain ⟨hvalid, hrank⟩ := place_spec hb p hp
  refine ⟨b, ?_, hb, rfl⟩
  have hvalue := hvalid.value?_eq
  rw [hrank, List.getElem?_eq_getElem hlt] at hvalue
  show ((p.iterator P kind b).bind Iterator.value?).map _
    = some (b, Reply.pointer b.values[p.rank P b.values]?)
  rw [hvalue, List.getElem?_eq_getElem hlt]
  rfl

/-- A loop that collects what it reads. -/
theorem foldl_collect (l m : List α) : m.foldl (fun l v => l ++ [v]) l = l ++ m := by
  induction m generalizing l with
  | nil => exact (List.append_nil l).symm
  | cons v m ih => rw [List.foldl_cons, ih, List.append_assoc, List.singleton_append]

theorem forward_ok (hb : KindOk P kind b) {p q : Place κ} (hp : p.Allowed P b.values)
    (hq : q.Allowed P b.values) (hle : p.rank P b.values ≤ q.rank P b.values) :
    CallOk P kind b (.forward p q) := by
  refine ⟨b, ?_, hb, rfl⟩
  show (loop _ b _ _ []).map _ = _
  rw [loop_forEach hb.multiOk.ok (place_spec hb p hp).1 (place_spec hb q hq).1
    (between_places hb hp hq hle) [], foldl_collect]
  rfl

theorem backward_ok (hb : KindOk P kind b) {p q : Place κ} (hp : p.Allowed P b.values)
    (hq : q.Allowed P b.values) (hle : p.rank P b.values ≤ q.rank P b.values) :
    CallOk P kind b (.backward q p) := by
  have hbetween := between_places hb hp hq hle
  rw [← List.reverse_reverse (List.drop _ _)] at hbetween
  refine ⟨b, ?_, hb, rfl⟩
  show (loop _ b _ _ []).map _ = _
  rw [loop_forEachBack hb.multiOk.ok (place_spec hb q hq).1 (place_spec hb p hp).1 hbetween [],
    foldl_collect]
  rfl

/-- **What a call does to the tree and returns is what it does to the list**, and no assertion of
the B-tree fails in it. -/
theorem call_ok (hb : KindOk P kind b) (c : Call κ α) (hc : c.Allowed P b.values) :
    CallOk P kind b c := by
  cases c with
  | insert v => exact insert_ok hb v
  | insertAt p v => exact insertAt_ok hb p v hc
  | insertRange vs => exact insertRange_ok hb vs
  | erase k => exact erase_ok hb k
  | eraseAt p => exact eraseAt_ok hb p hc.1 hc.2
  | eraseRange p q => exact eraseRange_ok hb hc.1 hc.2.1 hc.2.2
  | count k => exact count_ok hb k
  | read p => exact read_ok hb p hc.1 hc.2
  | forward p q => exact forward_ok hb hc.1 hc.2.1 hc.2.2
  | backward q p => exact backward_ok hb hc.1 hc.2.1 hc.2.2
  | size =>
      refine ⟨b, ?_, hb, rfl⟩
      show some (b, Reply.number b.size) = _
      rw [size_eq hb.multiOk.ok]
      rfl
  | verify => exact ⟨b, if_pos (verify_of_multiOk hb.multiOk), hb, rfl⟩
  | clear => exact ⟨empty, rfl, kindOk_empty P kind, rfl⟩
  | copy =>
      obtain ⟨b', hassign, hb', hvalues⟩ := assign_spec hb.multiOk
      refine ⟨b', ?_, hb.of_sublist hb'.ok (by rw [hvalues]), hvalues⟩
      show (assign P b).map _ = _
      rw [hassign]
      rfl

/-! ## Runs -/

theorem step_refines {s : TreeState α} {t : ListState α} (hs : Refines P kind s t) (c : Call κ α)
    (hc : c.Allowed P s.tree.values) :
    ∃ s', step P kind s c = some s' ∧ Refines P kind s' (listStep P kind t c) := by
  obtain ⟨b', hcall, hb', hvalues⟩ := call_ok hs.ok c hc
  rw [hs.values] at hcall hvalues
  refine ⟨⟨b', s.replies ++ [(listCall P kind t.list c).2]⟩, ?_, hb', hvalues, ?_⟩
  · unfold step
    rw [hcall]
    rfl
  · show s.replies ++ _ = t.replies ++ _
    rw [hs.replies]

/-- The caller sees to what has to be seen to, all along a sequence of calls. -/
def Guarded (P : BtreeParams κ α) (kind : Kind) (s : TreeState α) (cs : List (Call κ α)) : Prop :=
  StepRun.Guarded (step P kind) (fun s c => c.Allowed P s.tree.values) s cs

/-- A new container. -/
def TreeState.new : TreeState α := ⟨empty, []⟩

/-- A new list. -/
def ListState.new : ListState α := ⟨[], []⟩

/-- Insertions with and without hints, erasures and loops, on a multiset. -/
def smallCalls : List (Call ℤ ℤ) :=
  [.insert 5, .insert 3, .insertRange [1, 4, 2, 8, 7, 3], .insertAt (.lowerBound 4) 6,
    .insertAt (.next .begin) 3, .verify, .erase 3, .eraseAt (.upperBound 4), .read (.prev .end_),
    .forward .begin .end_, .eraseRange (.find 4) .end_, .copy, .backward .end_ .begin]

section Independent

variable {P' : BtreeParams κ α} (hkey : P.key = P'.key) (horder : P.order = P'.order)

include hkey horder

end Independent

end Run

end Btree
