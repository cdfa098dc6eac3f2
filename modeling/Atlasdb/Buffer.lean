/-
# The byte buffer (`atlasdb/utility/buffer.h`)

`buffer<LowWater, HighWater, Capacity>` keeps its readable bytes in the part of a
fixed array between two indices.  `Buffer` is the class with its member functions;
`ByteDeques` says what the class is for: each buffer stands for a list of bytes
that grows at both ends and is consumed from the front.

The main result is `run_refines_byteDeques`: any two buffers whose indices are in
order behave as two such lists over every sequence of calls that respects the
space functions, and all stores stay inside the arrays.
-/
import Atlasdb.StepRun
import Atlasdb.ArrayWindow
import Atlasdb.SizeT

open ArrayWindow

/-! ## The class -/

/-- The template parameters with the two `static_assert`s of the class.  The
capacity is itself a `size_t`. -/
structure WaterMarks where
  lowWater : ℕ
  highWater : ℕ
  capacity : ℕ
  low_le_high : lowWater ≤ highWater
  high_lt_capacity : highWater < capacity
  capacity_lt : capacity < SizeT.modulus

/-- The data members `_i_low`, `_i_high` and `_buffer`. -/
@[ext] structure Buffer (w : WaterMarks) where
  iLow : ℕ
  iHigh : ℕ
  buffer : Vector UInt8 w.capacity
  deriving DecidableEq

namespace Buffer

variable {w : WaterMarks}

/-- The constructor.  It leaves the array as the storage held it. -/
def init (storage : Vector UInt8 w.capacity) : Buffer w where
  iLow := w.lowWater
  iHigh := w.highWater
  buffer := storage

/-- `swap(other)`: the two buffers after the exchange. -/
def swap (b other : Buffer w) : Buffer w × Buffer w :=
  ({ iLow := other.iLow, iHigh := other.iHigh, buffer := other.buffer },
    { iLow := b.iLow, iHigh := b.iHigh, buffer := b.buffer })

/-- `dirty_space_size()`. -/
def dirtySpaceSize (b : Buffer w) : ℕ := SizeT.sub b.iHigh b.iLow

/-- `above_high_water_size()`. -/
def aboveHighWaterSize (b : Buffer w) : ℕ := SizeT.sub w.capacity b.iHigh

/-- `under_low_water_size()`. -/
def underLowWaterSize (b : Buffer w) : ℕ := b.iLow

/-- `retrieve_all()`. -/
def retrieveAll (b : Buffer w) : Buffer w := { b with iLow := 0, iHigh := 0 }

/-- `retrieve(len)`. -/
def retrieve (b : Buffer w) (len : ℕ) : Buffer w :=
  if len < b.dirtySpaceSize then { b with iLow := SizeT.add b.iLow len }
  else b.retrieveAll

/-- The `len` bytes that start at `peek()`. -/
def peekBytes (b : Buffer w) (len : ℕ) : List UInt8 := (b.buffer.toList.drop b.iLow).take len

/-- `retrieve_as<T>(len)` for a `T` made from a pointer and a length; `none` is the
failing assertion. -/
def retrieveAs (b : Buffer w) (len : ℕ) : Option (List UInt8 × Buffer w) :=
  if len ≤ b.dirtySpaceSize then some (b.peekBytes len, b.retrieve len) else none

/-- `raise_high_water(len)`. -/
def raiseHighWater (b : Buffer w) (len : ℕ) : Buffer w :=
  { b with iHigh := SizeT.add b.iHigh len }

/-- `append(data, len)`, with `len` the length of `data`; `none` is a store outside
the array. -/
def append (b : Buffer w) (data : List UInt8) : Option (Buffer w) :=
  (copyTo b.buffer b.iHigh data).map fun a => raiseHighWater { b with buffer := a } data.length

/-- `prepend(data, len)`.  The lower index moves before the bytes are copied. -/
def prepend (b : Buffer w) (data : List UInt8) : Option (Buffer w) :=
  let low := SizeT.sub b.iLow data.length
  (copyTo b.buffer low data).map fun a => { b with iLow := low, buffer := a }

/-! ## The index invariant and the readable window -/

/-- `_i_low <= _i_high <= Capacity`. -/
structure Ordered (b : Buffer w) : Prop where
  low_le_high : b.iLow ≤ b.iHigh
  high_le_capacity : b.iHigh ≤ w.capacity

/-- The readable window: the `dirty_space_size()` bytes that start at `peek()`. -/
def readable (b : Buffer w) : List UInt8 := b.peekBytes b.dirtySpaceSize

/-- A newly constructed buffer has its indices in order. -/
theorem init_ordered (storage : Vector UInt8 w.capacity) : (init storage).Ordered where
  low_le_high := w.low_le_high
  high_le_capacity := w.high_lt_capacity.le

/-- With the indices in order the size of the window does not wrap. -/
theorem Ordered.dirtySpaceSize_eq {b : Buffer w} (h : b.Ordered) :
    b.dirtySpaceSize = b.iHigh - b.iLow := by
  have hcap := w.capacity_lt
  have hhigh := h.high_le_capacity
  exact SizeT.sub_of_le (by omega) h.low_le_high

/-- With the indices in order the space above the window does not wrap. -/
theorem Ordered.aboveHighWaterSize_eq {b : Buffer w} (h : b.Ordered) :
    b.aboveHighWaterSize = w.capacity - b.iHigh :=
  SizeT.sub_of_le w.capacity_lt h.high_le_capacity

/-- With the indices in order the readable bytes are a window of the array. -/
theorem Ordered.readable_eq {b : Buffer w} (h : b.Ordered) :
    b.readable = window b.buffer b.iLow b.iHigh := by
  unfold readable
  rw [peekBytes, h.dirtySpaceSize_eq, window, List.drop_take]

/-- The window has the size that `dirty_space_size()` reports. -/
theorem Ordered.length_readable {b : Buffer w} (h : b.Ordered) :
    b.readable.length = b.dirtySpaceSize := by
  rw [h.readable_eq, length_window _ _ _ h.high_le_capacity, h.dirtySpaceSize_eq]

/-! ## One lemma for each operation -/

/-- `append` within the space above the window adds its bytes at the back. -/
theorem append_spec {b : Buffer w} (h : b.Ordered) {data : List UInt8}
    (hdata : data.length ≤ b.aboveHighWaterSize) :
    ∃ b', b.append data = some b' ∧ b'.Ordered ∧ b'.readable = b.readable ++ data := by
  rw [h.aboveHighWaterSize_eq] at hdata
  have hcap := w.capacity_lt
  have hhigh := h.high_le_capacity
  have hfit : b.iHigh + data.length ≤ w.capacity := by omega
  obtain ⟨a, ha, -⟩ := copyTo_of_le b.buffer b.iHigh data hfit
  have hadd : SizeT.add b.iHigh data.length = b.iHigh + data.length :=
    SizeT.add_of_lt (by omega)
  have hord : (raiseHighWater { b with buffer := a } data.length).Ordered := by
    have hlow := h.low_le_high
    constructor
    · show b.iLow ≤ SizeT.add b.iHigh data.length
      omega
    · show SizeT.add b.iHigh data.length ≤ w.capacity
      omega
  refine ⟨_, by rw [append, ha, Option.map_some], hord, ?_⟩
  rw [hord.readable_eq, h.readable_eq]
  show window a b.iLow (SizeT.add b.iHigh data.length) = _
  rw [hadd, window_copyTo_above h.low_le_high hfit ha]

/-- An `append` that does not fail had room above the window, and has added its bytes. -/
theorem append_inv {b b' : Buffer w} (h : b.Ordered) {data : List UInt8}
    (hb' : b.append data = some b') :
    data.length ≤ b.aboveHighWaterSize ∧ b'.Ordered ∧ b'.readable = b.readable ++ data := by
  have hfits : data.length ≤ b.aboveHighWaterSize := by
    by_contra hlen
    rw [h.aboveHighWaterSize_eq] at hlen
    have hnone : copyTo b.buffer b.iHigh data = none :=
      copyTo_of_lt b.buffer b.iHigh data h.high_le_capacity (by omega)
    rw [append, hnone, Option.map_none] at hb'
    exact Option.some_ne_none b' hb'.symm
  obtain ⟨c, hc, hord, hread⟩ := append_spec h hfits
  obtain rfl : c = b' := Option.some.inj (hc.symm.trans hb')
  exact ⟨hfits, hord, hread⟩

/-- `prepend` within the space below the window adds its bytes at the front. -/
theorem prepend_spec {b : Buffer w} (h : b.Ordered) {data : List UInt8}
    (hdata : data.length ≤ b.underLowWaterSize) :
    ∃ b', b.prepend data = some b' ∧ b'.Ordered ∧ b'.readable = data ++ b.readable := by
  have hcap := w.capacity_lt
  have hlow := h.low_le_high
  have hhigh := h.high_le_capacity
  replace hdata : data.length ≤ b.iLow := hdata
  have hsub : SizeT.sub b.iLow data.length = b.iLow - data.length :=
    SizeT.sub_of_le (by omega) hdata
  obtain ⟨a, ha, -⟩ := copyTo_of_le b.buffer (b.iLow - data.length) data (by omega)
  have hord : ({ b with iLow := b.iLow - data.length, buffer := a } : Buffer w).Ordered := by
    constructor
    · show b.iLow - data.length ≤ b.iHigh
      omega
    · exact hhigh
  refine ⟨_, by rw [prepend, hsub, ha, Option.map_some], hord, ?_⟩
  rw [hord.readable_eq, h.readable_eq]
  show window a (b.iLow - data.length) b.iHigh = _
  rw [window_copyTo_below (by omega) hhigh ha, Nat.sub_add_cancel hdata]

/-- A `prepend` that does not fail had room below the window: a wrapped index is far above the
array. -/
theorem prepend_inv {b b' : Buffer w} {data : List UInt8} (hb' : b.prepend data = some b') :
    data.length ≤ b.underLowWaterSize := by
  by_contra hlen
  rw [underLowWaterSize, Nat.not_le] at hlen
  have hcap := w.capacity_lt
  have hne : data ≠ [] := List.ne_nil_of_length_pos (by omega)
  have hout : w.capacity < SizeT.sub b.iLow data.length + data.length := by
    by_cases hsize : data.length < SizeT.modulus
    · rw [SizeT.sub_of_lt hlen hsize]
      omega
    · omega
  rw [prepend, copyTo_eq_none b.buffer _ hne hout, Option.map_none] at hb'
  exact Option.some_ne_none b' hb'.symm

/-- `retrieve_all` empties the window. -/
theorem retrieveAll_spec (b : Buffer w) : b.retrieveAll.Ordered ∧ b.retrieveAll.readable = [] := by
  have hord : b.retrieveAll.Ordered := ⟨Nat.le_refl 0, Nat.zero_le _⟩
  refine ⟨hord, ?_⟩
  rw [hord.readable_eq]
  exact window_of_le _ (Nat.le_refl 0)

/-- `retrieve` drops the first bytes of the window, all of them where it asks for more. -/
theorem retrieve_spec {b : Buffer w} (h : b.Ordered) (len : ℕ) :
    (b.retrieve len).Ordered ∧ (b.retrieve len).readable = b.readable.drop len := by
  have hsize := h.dirtySpaceSize_eq
  have hcap := w.capacity_lt
  have hhigh := h.high_le_capacity
  by_cases hlen : len < b.dirtySpaceSize
  · have hadd : SizeT.add b.iLow len = b.iLow + len := SizeT.add_of_lt (by omega)
    have heq : b.retrieve len = { b with iLow := b.iLow + len } := by
      unfold retrieve
      rw [if_pos hlen, hadd]
    have hord : ({ b with iLow := b.iLow + len } : Buffer w).Ordered := by
      constructor
      · show b.iLow + len ≤ b.iHigh
        omega
      · exact hhigh
    rw [heq]
    refine ⟨hord, ?_⟩
    rw [hord.readable_eq, h.readable_eq]
    exact window_add b.buffer b.iLow b.iHigh len
  · -- the saturating branch: both indices restart at 0
    unfold retrieve
    rw [if_neg hlen]
    obtain ⟨hord, hempty⟩ := b.retrieveAll_spec
    refine ⟨hord, ?_⟩
    rw [hempty, List.drop_eq_nil_of_le (by rw [h.length_readable]; omega)]

/-- `retrieve_as` within the window returns its first bytes and drops them. -/
theorem retrieveAs_spec {b : Buffer w} {len : ℕ} (hlen : len ≤ b.dirtySpaceSize) :
    b.retrieveAs len = some (b.readable.take len, b.retrieve len) := by
  have htake : b.peekBytes len = b.readable.take len := by
    unfold readable
    rw [peekBytes, peekBytes, List.take_take, Nat.min_eq_left hlen]
  rw [retrieveAs, if_pos hlen, htake]

/-- A `retrieve_as` that does not fail asked for no more than the window holds, and has
returned its first bytes and dropped them. -/
theorem retrieveAs_inv {b : Buffer w} {len : ℕ} {r : List UInt8 × Buffer w}
    (hr : b.retrieveAs len = some r) :
    len ≤ b.dirtySpaceSize ∧ r = (b.readable.take len, b.retrieve len) := by
  have hlen : len ≤ b.dirtySpaceSize := by
    by_contra hlen
    rw [retrieveAs, if_neg hlen] at hr
    exact Option.some_ne_none r hr.symm
  exact ⟨hlen, Option.some.inj (hr.symm.trans (retrieveAs_spec hlen))⟩

/-! ## The calls of one buffer -/

/-- A call of a member function. -/
inductive Call where
  | append (data : List UInt8)
  | prepend (data : List UInt8)
  | retrieve (len : ℕ)
  | retrieveAll
  | retrieveAs (len : ℕ)
  deriving DecidableEq, Repr

/-- One call: what it returns, if it is a `retrieve_as`, and the buffer afterwards; `none` is a
failing assertion or a store outside the array. -/
def call (b : Buffer w) : Call → Option (Option (List UInt8) × Buffer w)
  | .append data => (b.append data).map fun b' => (none, b')
  | .prepend data => (b.prepend data).map fun b' => (none, b')
  | .retrieve len => some (none, b.retrieve len)
  | .retrieveAll => some (none, b.retrieveAll)
  | .retrieveAs len => (b.retrieveAs len).map fun r => (some r.1, r.2)

/-- The calls that respect the space functions: `append` fits above the window,
`prepend` below it, and `retrieve_as` asks for no more than the window holds. -/
def Allowed (b : Buffer w) : Call → Prop
  | .append data => data.length ≤ b.aboveHighWaterSize
  | .prepend data => data.length ≤ b.underLowWaterSize
  | .retrieve _ => True
  | .retrieveAll => True
  | .retrieveAs len => len ≤ b.dirtySpaceSize

instance (b : Buffer w) : ∀ c, Decidable (b.Allowed c)
  | .append _ => inferInstanceAs (Decidable (_ ≤ _))
  | .prepend _ => inferInstanceAs (Decidable (_ ≤ _))
  | .retrieve _ => isTrue trivial
  | .retrieveAll => isTrue trivial
  | .retrieveAs _ => inferInstanceAs (Decidable (_ ≤ _))

end Buffer

/-- What a buffer stands for: a list of bytes. -/
abbrev ByteDeque := List UInt8

/-- The meaning of a call on a list of bytes: what it returns, and the list afterwards. -/
def ByteDeque.call (bytes : ByteDeque) : Buffer.Call → Option (List UInt8) × ByteDeque
  | .append data => (none, bytes ++ data)
  | .prepend data => (none, data ++ bytes)
  | .retrieve len => (none, bytes.drop (min len bytes.length))
  | .retrieveAll => (none, [])
  | .retrieveAs len => (some (bytes.take len), bytes.drop len)

namespace Buffer

variable {w : WaterMarks}

/-- **One call.**  On a buffer with its indices in order, an allowed call does not fail, keeps
the indices in order, and is the deque operation on what is readable. -/
theorem call_refines {b : Buffer w} (h : b.Ordered) {c : Call} (hc : b.Allowed c) :
    ∃ b', b.call c = some ((ByteDeque.call b.readable c).1, b') ∧ b'.Ordered ∧
      b'.readable = (ByteDeque.call b.readable c).2 := by
  cases c with
  | append data =>
      obtain ⟨b', hb', hord, hread⟩ := append_spec h hc
      exact ⟨b', by rw [call, hb', Option.map_some, ByteDeque.call], hord, hread⟩
  | prepend data =>
      obtain ⟨b', hb', hord, hread⟩ := prepend_spec h hc
      exact ⟨b', by rw [call, hb', Option.map_some, ByteDeque.call], hord, hread⟩
  | retrieve len =>
      obtain ⟨hord, hread⟩ := retrieve_spec h len
      refine ⟨b.retrieve len, rfl, hord, ?_⟩
      rw [hread, ByteDeque.call, ← List.drop_eq_drop_min]
  | retrieveAll =>
      obtain ⟨hord, hread⟩ := b.retrieveAll_spec
      exact ⟨b.retrieveAll, rfl, hord, hread⟩
  | retrieveAs len =>
      obtain ⟨hord, hread⟩ := retrieve_spec h len
      have hret := retrieveAs_spec hc
      exact ⟨b.retrieve len, by rw [call, hret, Option.map_some, ByteDeque.call], hord, hread⟩

/-- No other call goes through. -/
theorem call_ne_none_iff {b : Buffer w} (h : b.Ordered) (c : Call) :
    b.call c ≠ none ↔ b.Allowed c := by
  constructor
  · intro hcall
    obtain ⟨r, hr⟩ := Option.ne_none_iff_exists'.mp hcall
    cases c with
    | append data =>
        obtain ⟨b', hb', -⟩ := Option.map_eq_some_iff.mp hr
        exact (append_inv h hb').1
    | prepend data =>
        obtain ⟨b', hb', -⟩ := Option.map_eq_some_iff.mp hr
        exact prepend_inv hb'
    | retrieve len => trivial
    | retrieveAll => trivial
    | retrieveAs len =>
        obtain ⟨r', hr', -⟩ := Option.map_eq_some_iff.mp hr
        exact (retrieveAs_inv hr').1
  · intro hc
    obtain ⟨b', hb', -, -⟩ := call_refines h hc
    rw [hb']
    exact Option.some_ne_none _

/-- So a call that goes through was allowed, and is the deque operation. -/
theorem call_inv {b : Buffer w} (h : b.Ordered) {c : Call} {r : Option (List UInt8) × Buffer w}
    (hr : b.call c = some r) :
    b.Allowed c ∧ r.2.Ordered ∧ (r.1, r.2.readable) = ByteDeque.call b.readable c := by
  have hc : b.Allowed c := (call_ne_none_iff h c).mp (by rw [hr]; exact Option.some_ne_none r)
  obtain ⟨b', hb', hord, hread⟩ := call_refines h hc
  obtain rfl : r = (_, b') := Option.some.inj (hr.symm.trans hb')
  refine ⟨hc, hord, ?_⟩
  rw [hread]

end Buffer

/-! ## Two buffers under a sequence of calls -/

/-- The buffer that a member function is called on. -/
inductive Side where
  | left
  | right
  deriving DecidableEq, Repr

/-- A call on one of two buffers; `swap` exchanges it with the other one. -/
inductive BufferCall where
  | on (side : Side) (c : Buffer.Call)
  | swap (side : Side)
  deriving DecidableEq, Repr

/-- Two buffers of one type, and what the calls of `retrieve_as` have returned so far. -/
@[ext] structure BufferPair (w : WaterMarks) where
  left : Buffer w
  right : Buffer w
  returned : List (List UInt8)
  deriving DecidableEq

namespace BufferPair

variable {w : WaterMarks}

/-- The buffer on one side. -/
def on (p : BufferPair w) : Side → Buffer w
  | .left => p.left
  | .right => p.right

/-- The pair with the buffer on one side replaced. -/
def setOn (p : BufferPair w) (b : Buffer w) : Side → BufferPair w
  | .left => { p with left := b }
  | .right => { p with right := b }

/-- One call; `none` is a failing assertion or a store outside the array. -/
def step (p : BufferPair w) : BufferCall → Option (BufferPair w)
  | .on side c => ((p.on side).call c).map fun r =>
      { p.setOn r.2 side with returned := p.returned ++ r.1.toList }
  | .swap .left =>
      let s := p.left.swap p.right
      some { p with left := s.1, right := s.2 }
  | .swap .right =>
      let s := p.right.swap p.left
      some { p with left := s.2, right := s.1 }

/-- The calls that respect the space functions of their buffer. -/
def Allowed (p : BufferPair w) : BufferCall → Prop
  | .on side c => (p.on side).Allowed c
  | .swap _ => True

instance (p : BufferPair w) : ∀ c, Decidable (p.Allowed c)
  | .on side c => inferInstanceAs (Decidable ((p.on side).Allowed c))
  | .swap _ => isTrue trivial

/-- Both buffers have their indices in order. -/
def Ordered (p : BufferPair w) : Prop := p.left.Ordered ∧ p.right.Ordered

end BufferPair

/-! ## Byte deques -/

/-- What two buffers stand for: two lists of bytes, and the bytes returned so far. -/
@[ext] structure ByteDeques where
  left : ByteDeque
  right : ByteDeque
  returned : List (List UInt8)
  deriving DecidableEq, Repr

namespace ByteDeques

/-- The list on one side. -/
def on (q : ByteDeques) : Side → ByteDeque
  | .left => q.left
  | .right => q.right

/-- The pair with the list on one side replaced. -/
def setOn (q : ByteDeques) (bytes : ByteDeque) : Side → ByteDeques
  | .left => { q with left := bytes }
  | .right => { q with right := bytes }

/-- The meaning of a call on two byte lists. -/
def step (q : ByteDeques) : BufferCall → ByteDeques
  | .on side c =>
      let r := (q.on side).call c
      { q.setOn r.2 side with returned := q.returned ++ r.1.toList }
  | .swap _ => { q with left := q.right, right := q.left }

end ByteDeques

namespace BufferPair

variable {w : WaterMarks}

/-- The byte lists that the two buffers hold. -/
def contents (p : BufferPair w) : ByteDeques where
  left := p.left.readable
  right := p.right.readable
  returned := p.returned

/-- The abstraction reads one side at a time. -/
theorem contents_on (p : BufferPair w) (side : Side) :
    p.contents.on side = (p.on side).readable := by
  cases side <;> rfl

/-- Replacing a buffer replaces the list on its side. -/
theorem contents_setOn (p : BufferPair w) (b : Buffer w) (side : Side) :
    (p.setOn b side).contents = p.contents.setOn b.readable side := by
  cases side <;> rfl

/-- In an ordered pair each buffer is ordered. -/
theorem Ordered.on {p : BufferPair w} (h : p.Ordered) (side : Side) : (p.on side).Ordered := by
  cases side
  · exact h.1
  · exact h.2

/-- Replacing a buffer by an ordered one keeps the pair ordered. -/
theorem Ordered.setOn {p : BufferPair w} (h : p.Ordered) {b : Buffer w} (hb : b.Ordered)
    (side : Side) : (p.setOn b side).Ordered := by
  cases side
  · exact ⟨hb, h.2⟩
  · exact ⟨h.1, hb⟩

/-- **Step lemma.**  An allowed call on ordered buffers does not fail, keeps them
ordered, and is the deque operation on what they hold. -/
theorem step_refines {p : BufferPair w} (h : p.Ordered) {c : BufferCall} (hc : p.Allowed c) :
    ∃ p', p.step c = some p' ∧ p'.Ordered ∧ p'.contents = p.contents.step c := by
  cases c with
  | on side c =>
      obtain ⟨b, hb, hord, hread⟩ := Buffer.call_refines (h.on side) hc
      have hstep : p.step (.on side c) = some { p.setOn b side with
          returned := p.returned ++ (ByteDeque.call (p.on side).readable c).1.toList } := by
        rw [step, hb, Option.map_some]
      refine ⟨_, hstep, ?_, ?_⟩
      · exact h.setOn hord side
      · rw [ByteDeques.step, contents_on, ← hread, ← contents_setOn]
        rfl
  | swap side =>
      cases side
      · exact ⟨_, rfl, ⟨h.2, h.1⟩, rfl⟩
      · exact ⟨_, rfl, ⟨h.2, h.1⟩, rfl⟩

/-- **The byte buffer is a byte deque.**  From any two buffers with ordered indices,
at every point of every sequence of allowed calls: no call has failed (so every store
went inside an array), the indices are in order, and the two readable windows and the
returned bytes are those of the two byte lists under the same calls. -/
theorem run_refines_byteDeques (p : BufferPair w) (calls : List BufferCall) (h : p.Ordered)
    (hg : StepRun.Guarded step Allowed p calls) :
    ∀ pre, pre <+: calls → ∃ p', StepRun.run step p pre = some p' ∧ p'.Ordered ∧
      p'.contents = pre.foldl ByteDeques.step p.contents := by
  intro pre hpre
  refine StepRun.run_simulates (R := fun p q => p.Ordered ∧ p.contents = q) ?_ ⟨h, rfl⟩
    (hg.of_prefix hpre)
  rintro p q c ⟨hp, rfl⟩ hc
  exact step_refines hp hc

/-- Two new buffers of eight bytes, with both water marks at 2. -/
def smallPair : BufferPair ⟨2, 2, 8, by decide, by decide, by decide⟩ where
  left := Buffer.init (Vector.replicate 8 0)
  right := Buffer.init (Vector.replicate 8 0)
  returned := []

/-- A sequence of calls on `smallPair` in which each operation occurs. -/
def smallCalls : List BufferCall :=
  [.on .left (.append [1, 2, 3]), .on .left (.prepend [9]), .on .left (.retrieveAs 2),
    .swap .left, .on .right (.append [7]), .on .right (.retrieve 10), .on .left (.prepend [5]),
    .on .left .retrieveAll]

theorem run_refines_byteDeques_smallPair :
    smallPair.Ordered ∧ StepRun.Guarded step Allowed smallPair smallCalls ∧
      ∀ pre, pre <+: smallCalls → ∃ p', StepRun.run step smallPair pre = some p' ∧ p'.Ordered ∧
        p'.contents = pre.foldl ByteDeques.step smallPair.contents := by
  have hord : smallPair.Ordered :=
    ⟨Buffer.init_ordered _, Buffer.init_ordered _⟩
  have hguard : StepRun.Guarded step Allowed smallPair smallCalls := by decide
  exact ⟨hord, hguard, run_refines_byteDeques smallPair smallCalls hord hguard⟩

end BufferPair
