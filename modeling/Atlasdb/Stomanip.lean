/-
# Loading a page of a table (`atlasdb/query/stomanip.h`)

`stomanip::load(table, start, limit)` scans a repository and writes the values of a page
into a buffer, behind a marker.  Its loop skips `start` entries and goes on writing while
`load_count <= limit`, so a page has one entry more than `limit` (`load_eq`).  The main
result, `load_exact_iff`, says for which tables and pages that entry makes no difference.
-/
import Atlasdb.Storage
import Atlasdb.Decimal

namespace Stomanip

variable {Key : Type}

/-! ## `stomanip::load` -/

/-- The local variables of `load`. -/
structure LoadState where
  ss : List UInt8
  scanCount : ℕ
  loadCount : ℕ

/-- The body of the loop. -/
def loadEntry (start limit : ℕ) (st : LoadState) (entry : Key × Value) : LoadState :=
  if st.scanCount < start then { st with scanCount := st.scanCount + 1 }
  else if st.loadCount ≤ limit then
    { st with ss := st.ss ++ entry.2, loadCount := st.loadCount + 1 }
  else st

/-- What `ss << 0` writes in front of the page. -/
def marker : List UInt8 := Decimal.intText 0

/-- `stomanip::load(table, start, limit)` on the repository that it opens, a local variable that is
not constant. -/
def load [LinearOrder Key] (storage : BasicRepository Key) (start limit : ℕ) : List UInt8 :=
  let entries := ContainerIterators.visited storage.container (storage.begin .mutable)
    (storage.end_ .mutable)
  (entries.foldl (loadEntry start limit) ⟨marker, 0, 0⟩).ss

/-- `__db::load(table)`, which leaves `start` and `limit` at their defaults. -/
def dbLoad [LinearOrder Key] (storage : BasicRepository Key) : List UInt8 := load storage 0 100

/-! ## What the loop writes -/

/-- The bytes of the values of some entries, one after the other. -/
def valueBytes (entries : List (Key × Value)) : List UInt8 := entries.flatMap Prod.snd

/-- The loop from any state: it skips what is left to skip and then writes values until
`load_count` is past the limit. -/
theorem foldl_loadEntry (start limit : ℕ) (entries : List (Key × Value)) (st : LoadState) :
    (entries.foldl (loadEntry start limit) st).ss = st.ss ++
      valueBytes ((entries.drop (start - st.scanCount)).take (limit + 1 - st.loadCount)) := by
  induction entries generalizing st with
  | nil => simp [valueBytes]
  | cons entry entries ih =>
      rw [List.foldl_cons, ih, loadEntry]
      -- an entry is skipped, written, or passed over behind the page
      by_cases hskip : st.scanCount < start
      · rw [if_pos hskip, show start - st.scanCount = start - (st.scanCount + 1) + 1 by omega,
          List.drop_succ_cons]
      · have hstart : start - st.scanCount = 0 := by omega
        rw [if_neg hskip]
        by_cases hload : st.loadCount ≤ limit
        · rw [if_pos hload, hstart, List.drop_zero, List.drop_zero,
            show limit + 1 - st.loadCount = limit + 1 - (st.loadCount + 1) + 1 by omega,
            List.take_succ_cons]
          simp [valueBytes]
        · rw [if_neg hload, show limit + 1 - st.loadCount = 0 by omega]
          simp [valueBytes]

/-- The page with one entry more is the page and the value of that entry. -/
theorem valueBytes_take_succ (entries : List (Key × Value)) (start limit : ℕ) :
    valueBytes ((entries.drop start).take (limit + 1))
      = valueBytes ((entries.drop start).take limit)
        ++ valueBytes entries[start + limit]?.toList := by
  rw [List.take_add_one, List.getElem?_drop, valueBytes, List.flatMap_append]
  rfl

/-- The values of an optional entry have no bytes exactly when its value has none. -/
theorem valueBytes_toList_eq_nil {entry : Option (Key × Value)} :
    valueBytes entry.toList = [] ↔ ∀ e ∈ entry, e.2 = [] := by
  cases entry with
  | none => simp [valueBytes]
  | some e => simp [valueBytes]

/-- Cutting a table into consecutive pages loses nothing. -/
theorem flatMap_chunks (entries : List (Key × Value)) (size n : ℕ) :
    ((List.range n).flatMap fun k => valueBytes ((entries.drop (k * size)).take size))
      = valueBytes (entries.take (n * size)) := by
  induction n with
  | zero => simp [valueBytes]
  | succ n ih =>
      rw [List.range_succ, List.flatMap_append, ih, List.flatMap_singleton, Nat.succ_mul,
        List.take_add, valueBytes, valueBytes, valueBytes, List.flatMap_append]

/-- Interleaving two families of lists adds up their lengths. -/
theorem length_flatMap_append {ι α : Type*} (l : List ι) (f g : ι → List α) :
    (l.flatMap fun i => f i ++ g i).length = (l.flatMap f).length + (l.flatMap g).length := by
  induction l with
  | nil => rfl
  | cons i l ih =>
      rw [List.flatMap_cons, List.flatMap_cons, List.flatMap_cons]
      simp only [List.length_append]
      omega

/-- Interleaving empty lists changes nothing, and nothing else does. -/
theorem flatMap_append_eq_left_iff {ι α : Type*} (l : List ι) (f g : ι → List α) :
    (l.flatMap fun i => f i ++ g i) = l.flatMap f ↔ ∀ i ∈ l, g i = [] := by
  constructor
  · intro heq
    have hlen := length_flatMap_append l f g
    rw [heq] at hlen
    have hzero : (l.flatMap g).length = 0 := by omega
    exact List.flatMap_eq_nil_iff.mp (List.length_eq_zero_iff.mp hzero)
  · intro hnil
    apply List.flatMap_congr
    intro i hi
    rw [hnil i hi, List.append_nil]

/-! ## Single pages -/

variable [LinearOrder Key]

/-- **What `load` returns.**  The values of the entries of rank `start` to
`start + limit`, the last one included. -/
theorem load_eq (storage : BasicRepository Key) (start limit : ℕ) :
    load storage start limit
      = marker ++ valueBytes ((storage.container.drop start).take (limit + 1)) := by
  unfold load
  rw [storage.visited_begin_end, foldl_loadEntry]
  rfl

/-- With the defaults of `load` a table is cut to its first 101 entries, not 100. -/
theorem dbLoad_eq (storage : BasicRepository Key) :
    dbLoad storage = marker ++ valueBytes (storage.container.take 101) := by
  unfold dbLoad
  rw [load_eq, List.drop_zero]

/-- The buffer holds the values of the entries of rank `start` up to but not including
`start + limit`, in key order. -/
def IsPage (storage : BasicRepository Key) (start limit : ℕ) : Prop :=
  load storage start limit
    = marker ++ valueBytes ((storage.container.drop start).take limit)

/-- There is no entry of this rank, or its value has no bytes. -/
def NoBytesAt (storage : BasicRepository Key) (rank : ℕ) : Prop :=
  ∀ entry ∈ storage.container[rank]?, entry.2 = []

/-- A page is right exactly when the entry behind it adds nothing. -/
theorem isPage_iff (storage : BasicRepository Key) (start limit : ℕ) :
    IsPage storage start limit ↔ NoBytesAt storage (start + limit) := by
  rw [IsPage, load_eq, valueBytes_take_succ, List.append_cancel_left_eq, List.append_right_eq_self,
    valueBytes_toList_eq_nil, NoBytesAt]

/-! ## Paging through a table -/

/-- What the first `n` pages of a given size hold behind their markers. -/
def pages (storage : BasicRepository Key) (size n : ℕ) : List UInt8 :=
  (List.range n).flatMap fun k => (load storage (k * size) size).drop marker.length

/-- The pages of this size deliver every entry once: as soon as they reach the end of the
table, they hold the values of all entries in key order. -/
def PagesDeliver (storage : BasicRepository Key) (size : ℕ) : Prop :=
  ∀ n, storage.container.length ≤ n * size → pages storage size n = valueBytes storage.container

/-- The pages hold, page by page, the entries of the page and the one behind it. -/
theorem pages_eq (storage : BasicRepository Key) (size n : ℕ) :
    pages storage size n = (List.range n).flatMap fun k =>
      valueBytes ((storage.container.drop (k * size)).take size)
        ++ valueBytes storage.container[k * size + size]?.toList := by
  rw [pages]
  congr 1
  funext k
  rw [load_eq, List.drop_left, valueBytes_take_succ]

/-- Paging delivers every entry once exactly when no page but the first begins with an
entry that has a value. -/
theorem pagesDeliver_iff (storage : BasicRepository Key) (size : ℕ) :
    PagesDeliver storage (size + 1) ↔ ∀ k, NoBytesAt storage ((k + 1) * (size + 1)) := by
  have hpages : ∀ n, storage.container.length ≤ n * (size + 1) →
      (pages storage (size + 1) n = valueBytes storage.container ↔
        ∀ k < n, NoBytesAt storage ((k + 1) * (size + 1))) := by
    intro n hn
    have hall := flatMap_chunks storage.container (size + 1) n
    rw [List.take_of_length_le hn] at hall
    rw [pages_eq, ← hall, flatMap_append_eq_left_iff]
    simp only [List.mem_range, valueBytes_toList_eq_nil, NoBytesAt, Nat.succ_mul]
  constructor
  · intro hdeliver k
    -- enough pages to reach both the end of the table and the page behind the `k`-th
    have hn : storage.container.length ≤ (storage.container.length + k + 1) * (size + 1) := by
      nlinarith
    exact (hpages _ hn).mp (hdeliver _ hn) k (by omega)
  · intro hnone n hn
    exact (hpages n hn).mpr fun k _ => hnone k

/-- **When `load` returns the requested page.**  For every table: a page is exact if and
only if the entry of rank `start + limit` is missing or has no bytes, and pages of a size
from 1 on deliver every entry once if and only if this holds of all positive multiples of
the size. -/
theorem load_exact_iff (storage : BasicRepository Key) :
    (∀ start limit, IsPage storage start limit ↔ NoBytesAt storage (start + limit)) ∧
      ∀ size, PagesDeliver storage (size + 1) ↔
        ∀ k, NoBytesAt storage ((k + 1) * (size + 1)) :=
  ⟨isPage_iff storage, pagesDeliver_iff storage⟩

/-- A table with two entries of one byte each. -/
def twoEntries : BasicRepository ℕ where
  container := [(1, [97]), (2, [98])]
  ordered := by decide

/-- The first page of size 1 of `twoEntries` holds both entries. -/
theorem not_isPage_twoEntries :
    ¬ ∀ (storage : BasicRepository ℕ) (start limit : ℕ), IsPage storage start limit := by
  intro hall
  have hpage : IsPage twoEntries 0 1 := hall twoEntries 0 1
  exact absurd hpage (by unfold IsPage; decide)

end Stomanip
