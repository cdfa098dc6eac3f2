/-
# Indexes, repositories and storehouses (`atlasdb/storage`)

The containers of the storage layer: `BasicIndex` is a multimap from index keys to
primary keys, `BasicRepository` a map from primary keys to values, `BasicIndexer` a multimap
from names to indexes, and `BasicStorehouse` an object that owns one index for each of its
names.  The containers carry the order of their B-trees as a field.

A repository and an indexer are walked through from `begin()` to `end()` and from `rbegin()`
to `rend()`, on a constant or on another reference; `walksAgree_iff` says for which of them
both walks visit the whole store, and `visited_rbegin_rend_iff` and `visited_begin_end_iff` which
one does not.
-/
import Mathlib

/-! ## `basic_index` -/

/-- `basic_index<Key, Value, Ikey>`: the entries of its `btree_multimap`, which are kept
in the order of the index keys. -/
structure BasicIndex (Ikey Key : Type) [LinearOrder Ikey] where
  container : List (Ikey × Key)
  ordered : container.Pairwise fun e e' => e.1 ≤ e'.1

namespace BasicIndex

variable {Ikey Key : Type} [LinearOrder Ikey]

/-- The primary keys that `begin()` to `end()` goes through, in the order of the entries. -/
def primaryKeys (index : BasicIndex Ikey Key) : List Key := index.container.map Prod.snd

/-- They are the primary keys of the entries. -/
theorem mem_primaryKeys {index : BasicIndex Ikey Key} {k : Key} :
    k ∈ index.primaryKeys ↔ ∃ e ∈ index.container, e.2 = k := List.mem_map

end BasicIndex

/-! ## `basic_repository` -/

/-- The bytes of a `value`, `address()[0 .. size())`. -/
abbrev Value := List UInt8

/-- `basic_repository<Key, Value, Ikey>`: the entries of its `btree_map`, in key order. -/
structure BasicRepository (Key : Type) [LinearOrder Key] where
  container : List (Key × Value)
  ordered : container.Pairwise fun e e' => e.1 < e'.1

/-! ## `basic_indexer` -/

/-- `basic_indexer<Key, Value, Ikey>`: its `std::multimap` of indexes, in the order of the
names. -/
structure BasicIndexer (Ikey Key : Type) [LinearOrder Ikey] where
  indexes : List (String × BasicIndex Ikey Key)
  ordered : indexes.Pairwise fun e e' => e.1 ≤ e'.1

/-! ## Walks -/

/-- Whether a member function is called on a constant reference. -/
inductive Constness where
  | mutable
  | const
  deriving DecidableEq, Repr

/-- The iterators of an ordered container with the given entries: positions, which reverse
iterators count from the back. -/
structure ContainerIterators where
  begin : ℕ
  end_ : ℕ
  rbegin : ℕ
  rend : ℕ

/-- The four iterators of the container itself. -/
def containerIterators {α : Type} (entries : List α) : ContainerIterators where
  begin := 0
  end_ := entries.length
  rbegin := 0
  rend := entries.length

namespace ContainerIterators

variable {α : Type}

/-- The entries at the positions from one up to another. -/
def visited (entries : List α) (first last : ℕ) : List α := (entries.take last).drop first

/-- The walk from `begin()` to `end()` visits the entries in their order, and the walk from
`rbegin()` to `rend()` visits them in the reverse order. -/
structure WalksAgree (i : ContainerIterators) (entries : List α) : Prop where
  forward : visited entries i.begin i.end_ = entries
  backward : visited entries.reverse i.rbegin i.rend = entries.reverse

/-- Up to its length a walk visits the whole of a list. -/
theorem visited_all (entries : List α) : visited entries 0 entries.length = entries := by
  unfold visited
  rw [List.take_length, List.drop_zero]

/-- Backwards as well. -/
theorem visited_all_reverse (entries : List α) :
    visited entries.reverse 0 entries.length = entries.reverse := by
  rw [← List.length_reverse, visited_all]

/-- A walk that ends where it begins is complete in an empty list only. -/
theorem visited_none_iff (entries : List α) : visited entries 0 0 = entries ↔ entries = [] := by
  constructor
  · intro h
    exact h.symm
  · rintro rfl
    rfl

end ContainerIterators

open ContainerIterators (visited visited_all visited_all_reverse visited_none_iff)

namespace BasicRepository

variable {Key : Type} [LinearOrder Key] (storage : BasicRepository Key)

/-- The two overloads of `begin()`. -/
def begin : Constness → ℕ
  | .mutable => (containerIterators storage.container).begin
  | .const => (containerIterators storage.container).begin

/-- The two overloads of `end()`. -/
def end_ : Constness → ℕ
  | .mutable => (containerIterators storage.container).end_
  | .const => (containerIterators storage.container).end_

/-- The two overloads of `rbegin()`. -/
def rbegin : Constness → ℕ
  | .mutable => (containerIterators storage.container).rbegin
  | .const => (containerIterators storage.container).rbegin

/-- The two overloads of `rend()`. -/
def rend : Constness → ℕ
  -- `_container.rbegin()`, where the other overload has `_container.rend()`
  | .mutable => (containerIterators storage.container).rbegin
  | .const => (containerIterators storage.container).rend

/-- The iterators on a reference of either kind. -/
def iterators (c : Constness) : ContainerIterators where
  begin := storage.begin c
  end_ := storage.end_ c
  rbegin := storage.rbegin c
  rend := storage.rend c

/-- The walk forward through a repository is complete on every reference. -/
theorem visited_begin_end (c : Constness) :
    visited storage.container (storage.begin c) (storage.end_ c) = storage.container := by
  cases c with
  | mutable => exact visited_all storage.container
  | const => exact visited_all storage.container

/-- The walk backward is complete on a constant reference, and on another one if the repository
is empty. -/
theorem visited_rbegin_rend_iff (c : Constness) :
    visited storage.container.reverse (storage.rbegin c) (storage.rend c)
        = storage.container.reverse ↔ c = .const ∨ storage.container = [] := by
  cases c with
  | mutable =>
      show visited storage.container.reverse 0 0 = _ ↔ _
      rw [visited_none_iff, List.reverse_eq_nil_iff]
      simp
  | const => exact iff_of_true (visited_all_reverse storage.container) (Or.inl rfl)

/-- So both walks are complete where the one backward is. -/
theorem iterators_walksAgree_iff (c : Constness) :
    (storage.iterators c).WalksAgree storage.container ↔
      c = .const ∨ storage.container = [] := by
  rw [← storage.visited_rbegin_rend_iff c]
  constructor
  · rintro ⟨-, hbackward⟩
    exact hbackward
  · intro hbackward
    exact ⟨storage.visited_begin_end c, hbackward⟩

end BasicRepository

namespace BasicIndexer

variable {Ikey Key : Type} [LinearOrder Ikey] (indexer : BasicIndexer Ikey Key)

/-- The two overloads of `begin()`. -/
def begin : Constness → ℕ
  | .mutable => (containerIterators indexer.indexes).begin
  | .const => (containerIterators indexer.indexes).begin

/-- The two overloads of `end()`. -/
def end_ : Constness → ℕ
  -- `_indexes.begin()`, where the other overload has `_indexes.end()`
  | .mutable => (containerIterators indexer.indexes).begin
  | .const => (containerIterators indexer.indexes).end_

/-- The two overloads of `rbegin()`. -/
def rbegin : Constness → ℕ
  | .mutable => (containerIterators indexer.indexes).rbegin
  | .const => (containerIterators indexer.indexes).rbegin

/-- The two overloads of `rend()`. -/
def rend : Constness → ℕ
  | .mutable => (containerIterators indexer.indexes).rend
  | .const => (containerIterators indexer.indexes).rend

/-- The iterators on a reference of either kind. -/
def iterators (c : Constness) : ContainerIterators where
  begin := indexer.begin c
  end_ := indexer.end_ c
  rbegin := indexer.rbegin c
  rend := indexer.rend c

/-- The walk forward through an indexer is complete on a constant reference, and on another one if
there are no indexes. -/
theorem visited_begin_end_iff (c : Constness) :
    visited indexer.indexes (indexer.begin c) (indexer.end_ c) = indexer.indexes ↔
      c = .const ∨ indexer.indexes = [] := by
  cases c with
  | mutable =>
      show visited indexer.indexes 0 0 = _ ↔ _
      rw [visited_none_iff]
      simp
  | const => exact iff_of_true (visited_all indexer.indexes) (Or.inl rfl)

/-- The walk backward is complete on every reference. -/
theorem visited_rbegin_rend (c : Constness) :
    visited indexer.indexes.reverse (indexer.rbegin c) (indexer.rend c)
      = indexer.indexes.reverse := by
  cases c with
  | mutable => exact visited_all_reverse indexer.indexes
  | const => exact visited_all_reverse indexer.indexes

/-- So both walks are complete where the one forward is. -/
theorem iterators_walksAgree_iff (c : Constness) :
    (indexer.iterators c).WalksAgree indexer.indexes ↔ c = .const ∨ indexer.indexes = [] := by
  rw [← indexer.visited_begin_end_iff c]
  constructor
  · rintro ⟨hforward, -⟩
    exact hforward
  · intro hforward
    exact ⟨hforward, indexer.visited_rbegin_rend c⟩

end BasicIndexer

/-- **When the walks visit the whole store.**  For every repository and every indexer, on a
constant or another reference: if and only if the reference is constant or the store is
empty. -/
theorem walksAgree_iff {Ikey Key : Type} [LinearOrder Ikey] [LinearOrder Key]
    (storage : BasicRepository Key) (indexer : BasicIndexer Ikey Key) (c : Constness) :
    ((storage.iterators c).WalksAgree storage.container ↔
        c = .const ∨ storage.container = []) ∧
      ((indexer.iterators c).WalksAgree indexer.indexes ↔
        c = .const ∨ indexer.indexes = []) :=
  ⟨storage.iterators_walksAgree_iff c, indexer.iterators_walksAgree_iff c⟩

/-- A repository with one record. -/
def oneRecord : BasicRepository ℕ where
  container := [(1, [])]
  ordered := List.pairwise_singleton _ _

/-- An indexer with one empty index. -/
def oneIndex : BasicIndexer ℕ ℕ where
  indexes := [("age", ⟨[], List.Pairwise.nil⟩)]
  ordered := List.pairwise_singleton _ _

/-- Neither store is walked through completely on a reference that is not constant. -/
theorem not_walksAgree_oneEntry :
    (¬ ∀ (storage : BasicRepository ℕ) (c : Constness),
      (storage.iterators c).WalksAgree storage.container) ∧
    ¬ ∀ (indexer : BasicIndexer ℕ ℕ) (c : Constness),
      (indexer.iterators c).WalksAgree indexer.indexes := by
  constructor
  · intro hall
    have hempty := (oneRecord.iterators_walksAgree_iff .mutable).mp (hall oneRecord .mutable)
    exact hempty.elim (by decide) (List.cons_ne_nil _ _)
  · intro hall
    have hempty := (oneIndex.iterators_walksAgree_iff .mutable).mp (hall oneIndex .mutable)
    exact hempty.elim (by decide) (List.cons_ne_nil _ _)

/-! ## `basic_storehouse` -/

/-- The address of an object. -/
abbrev Address := ℕ

/-- `basic_storehouse`: its own address, its name, and the addresses of its indexes under
their names, in the order of the `std::multimap` of its `basic_indexer` part. -/
structure BasicStorehouse where
  self : Address
  name : String
  indexes : List (String × Address)

namespace BasicStorehouse

/-- `basic_indexer::at(name)`; `none` is a name without an index. -/
def at? (storehouse : BasicStorehouse) (name : String) : Option Address :=
  (storehouse.indexes.find? fun entry => entry.1 == name).map Prod.snd

end BasicStorehouse
