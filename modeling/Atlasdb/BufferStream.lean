/-
# Written and read bytes (`atlasdb/utility/buffer.h`)

A buffer between a writer and a reader hands on what is written to it.  A new buffer,
however, has a readable window from `LowWater` up to `HighWater` in an array that nothing
has been stored in, and these bytes are read first: `Conserved` is the equation between the
two histories and the window, and `writtenOnly_iff` says that the reader is sure to see
nothing but written bytes only when the water marks are equal or it never reads.
-/
import Atlasdb.Buffer

/-! ## Runs with their histories -/

/-- A buffer with all the bytes that have been appended and all that have been returned. -/
structure BufferStream (w : WaterMarks) where
  buffer : Buffer w
  appended : List UInt8
  returned : List UInt8
  deriving DecidableEq

namespace BufferStream

variable {w : WaterMarks}

/-- The call is one of the writer, `append`, or of the reader, `retrieve_as`. -/
def IsStream : Buffer.Call → Prop
  | .append _ => True
  | .retrieveAs _ => True
  | _ => False

/-- A call of the writer or of the reader. -/
abbrev Call := { c : Buffer.Call // IsStream c }

/-- The bytes that a call appends. -/
def written : Buffer.Call → List UInt8
  | .append data => data
  | _ => []

/-- The number of bytes that a call asks for. -/
def asked : Buffer.Call → ℕ
  | .retrieveAs len => len
  | _ => 0

/-- A new buffer. -/
def init (storage : Vector UInt8 w.capacity) : BufferStream w := ⟨.init storage, [], []⟩

/-- One call; `none` is a store outside the array, where an `append` does not fit above the
window, or the failing assertion of `retrieve_as`. -/
def step (s : BufferStream w) (c : Call) : Option (BufferStream w) :=
  (s.buffer.call c).map fun r =>
    { buffer := r.2, appended := s.appended ++ written c, returned := s.returned ++ r.1.getD [] }

/-- What has been returned is a prefix of what has been appended. -/
def WrittenOnly (s : BufferStream w) : Prop := s.returned <+: s.appended

/-! ## What a run conserves -/

/-- The bytes returned and the readable ones are the `initial` ones and those appended. -/
structure Conserved (initial : List UInt8) (s : BufferStream w) : Prop where
  ordered : s.buffer.Ordered
  conserved : s.returned ++ s.buffer.readable = initial ++ s.appended

/-- Initially there are the bytes that the array holds between the water marks. -/
theorem init_conserved (storage : Vector UInt8 w.capacity) :
    Conserved (Buffer.init storage).readable (init storage) where
  ordered := Buffer.init_ordered storage
  conserved := (List.append_nil _).symm

/-- A call moves bytes from the writer into the window, or from there to the reader. -/
theorem Conserved.step {initial : List UInt8} {s s' : BufferStream w} {c : Call}
    (h : Conserved initial s) (hstep : s.step c = some s') : Conserved initial s' := by
  obtain ⟨⟨bytes, b⟩, hr, rfl⟩ := Option.map_eq_some_iff.mp hstep
  obtain ⟨-, hord, hmeaning⟩ := Buffer.call_inv h.ordered hr
  refine ⟨hord, ?_⟩
  show s.returned ++ bytes.getD [] ++ b.readable = initial ++ (s.appended ++ written c)
  obtain ⟨c, hc⟩ := c
  cases c with
  | append data =>
      obtain ⟨rfl, hread⟩ := Prod.mk.inj hmeaning
      show s.returned ++ [] ++ b.readable = initial ++ (s.appended ++ data)
      rw [hread, List.append_nil, ← List.append_assoc, h.conserved, List.append_assoc]
  | retrieveAs len =>
      obtain ⟨rfl, hread⟩ := Prod.mk.inj hmeaning
      show s.returned ++ s.buffer.readable.take len ++ b.readable = initial ++ (s.appended ++ [])
      rw [hread, List.append_assoc, List.take_append_drop, h.conserved, List.append_nil]
  | prepend data | retrieve len | retrieveAll => exact hc.elim

/-- So does a whole run. -/
theorem Conserved.run {initial : List UInt8} {s s' : BufferStream w} {calls : List Call}
    (h : Conserved initial s) (hrun : StepRun.run BufferStream.step s calls = some s') :
    Conserved initial s' := by
  refine StepRun.run_invariant ?_ h hrun
  intro s c s' h hstep
  exact h.step hstep

/-- The reader gets as many bytes as it asks for. -/
theorem length_returned_step {s s' : BufferStream w} {c : Call} (h : s.buffer.Ordered)
    (hstep : s.step c = some s') : s'.returned.length = s.returned.length + asked c := by
  obtain ⟨⟨bytes, b⟩, hr, rfl⟩ := Option.map_eq_some_iff.mp hstep
  obtain ⟨hallowed, -, hmeaning⟩ := Buffer.call_inv h hr
  obtain ⟨c, hc⟩ := c
  cases c with
  | append data =>
      obtain ⟨rfl, -⟩ := Prod.mk.inj hmeaning
      show (s.returned ++ []).length = s.returned.length
      rw [List.append_nil]
  | retrieveAs len =>
      obtain ⟨rfl, -⟩ := Prod.mk.inj hmeaning
      have hlen : len ≤ s.buffer.dirtySpaceSize := hallowed
      show (s.returned ++ s.buffer.readable.take len).length = s.returned.length + len
      rw [List.length_append, List.length_take, h.length_readable, Nat.min_eq_left hlen]
  | prepend data | retrieve len | retrieveAll => exact hc.elim

/-- In a whole run the reader gets as many bytes as it asks for. -/
theorem length_returned_run {initial : List UInt8} {s s' : BufferStream w} {calls : List Call}
    (h : Conserved initial s) (hrun : StepRun.run step s calls = some s') :
    s'.returned.length = s.returned.length + (calls.map fun c : Call => asked c).sum := by
  induction calls generalizing s with
  | nil =>
      obtain rfl := Option.some.inj hrun
      rfl
  | cons c calls ih =>
      rw [StepRun.run_cons, Option.bind_eq_some_iff] at hrun
      obtain ⟨t, ht, hrest⟩ := hrun
      rw [ih (h.step ht) hrest, length_returned_step h.ordered ht, List.map_cons, List.sum_cons,
        Nat.add_assoc]

/-! ## Runs on another array -/

/-- The indices of two buffers agree; the arrays may differ. -/
structure SameIndices (b b' : Buffer w) : Prop where
  low_eq : b.iLow = b'.iLow
  high_eq : b.iHigh = b'.iHigh

namespace SameIndices

variable {b b' : Buffer w}

/-- The indices alone say whether they are in order. -/
theorem ordered (h : SameIndices b b') (hord : b.Ordered) : b'.Ordered := by
  constructor
  · rw [← h.low_eq, ← h.high_eq]
    exact hord.low_le_high
  · rw [← h.high_eq]
    exact hord.high_le_capacity

/-- The windows have the same size. -/
theorem dirtySpaceSize_eq (h : SameIndices b b') : b.dirtySpaceSize = b'.dirtySpaceSize := by
  unfold Buffer.dirtySpaceSize
  rw [h.low_eq, h.high_eq]

/-- They allow the same calls. -/
theorem allowed_iff (h : SameIndices b b') (c : Buffer.Call) : b.Allowed c ↔ b'.Allowed c := by
  cases c with
  | append data =>
      show _ ≤ SizeT.sub w.capacity b.iHigh ↔ _ ≤ SizeT.sub w.capacity b'.iHigh
      rw [h.high_eq]
  | prepend data =>
      show _ ≤ b.iLow ↔ _ ≤ b'.iLow
      rw [h.low_eq]
  | retrieve len => exact Iff.rfl
  | retrieveAll => exact Iff.rfl
  | retrieveAs len =>
      show _ ≤ b.dirtySpaceSize ↔ _ ≤ b'.dirtySpaceSize
      rw [h.dirtySpaceSize_eq]

/-- `retrieve` moves the indices alike. -/
theorem retrieve (h : SameIndices b b') (len : ℕ) :
    SameIndices (b.retrieve len) (b'.retrieve len) := by
  unfold Buffer.retrieve
  rw [h.dirtySpaceSize_eq]
  split_ifs
  · constructor
    · show SizeT.add b.iLow len = SizeT.add b'.iLow len
      rw [h.low_eq]
    · exact h.high_eq
  · exact ⟨rfl, rfl⟩

/-- Every call moves the indices alike. -/
theorem call (h : SameIndices b b') {c : Buffer.Call} {r r' : Option (List UInt8) × Buffer w}
    (hr : b.call c = some r) (hr' : b'.call c = some r') : SameIndices r.2 r'.2 := by
  cases c with
  | append data =>
      obtain ⟨d, hd, rfl⟩ := Option.map_eq_some_iff.mp hr
      obtain ⟨d', hd', rfl⟩ := Option.map_eq_some_iff.mp hr'
      obtain ⟨a, -, rfl⟩ := Option.map_eq_some_iff.mp hd
      obtain ⟨a', -, rfl⟩ := Option.map_eq_some_iff.mp hd'
      constructor
      · exact h.low_eq
      · show SizeT.add b.iHigh data.length = SizeT.add b'.iHigh data.length
        rw [h.high_eq]
  | prepend data =>
      obtain ⟨d, hd, rfl⟩ := Option.map_eq_some_iff.mp hr
      obtain ⟨d', hd', rfl⟩ := Option.map_eq_some_iff.mp hr'
      obtain ⟨a, -, rfl⟩ := Option.map_eq_some_iff.mp hd
      obtain ⟨a', -, rfl⟩ := Option.map_eq_some_iff.mp hd'
      constructor
      · show SizeT.sub b.iLow data.length = SizeT.sub b'.iLow data.length
        rw [h.low_eq]
      · exact h.high_eq
  | retrieve len =>
      obtain rfl := Option.some.inj hr
      obtain rfl := Option.some.inj hr'
      exact h.retrieve len
  | retrieveAll =>
      obtain rfl := Option.some.inj hr
      obtain rfl := Option.some.inj hr'
      exact ⟨rfl, rfl⟩
  | retrieveAs len =>
      obtain ⟨d, hd, rfl⟩ := Option.map_eq_some_iff.mp hr
      obtain ⟨d', hd', rfl⟩ := Option.map_eq_some_iff.mp hr'
      obtain ⟨-, rfl⟩ := Buffer.retrieveAs_inv hd
      obtain ⟨-, rfl⟩ := Buffer.retrieveAs_inv hd'
      exact h.retrieve len

end SameIndices

/-- The two states differ only in what the arrays hold and in what has been read. -/
structure Twin (s t : BufferStream w) : Prop where
  ordered : s.buffer.Ordered
  same : SameIndices s.buffer t.buffer
  appended_eq : s.appended = t.appended

/-- Twins can make the same calls. -/
theorem Twin.step {s s' t : BufferStream w} {c : Call} (h : Twin s t)
    (hstep : s.step c = some s') : ∃ t', t.step c = some t' ∧ Twin s' t' := by
  obtain ⟨r, hr, rfl⟩ := Option.map_eq_some_iff.mp hstep
  obtain ⟨hallowed, hord, -⟩ := Buffer.call_inv h.ordered hr
  rw [h.same.allowed_iff] at hallowed
  obtain ⟨b, hb, -, -⟩ := Buffer.call_refines (h.same.ordered h.ordered) hallowed
  refine ⟨_, by rw [BufferStream.step, hb, Option.map_some], hord, h.same.call hr hb, ?_⟩
  show s.appended ++ written c = t.appended ++ written c
  rw [h.appended_eq]

/-- Twins can make the same runs. -/
theorem Twin.run {s s' t : BufferStream w} {calls : List Call} (h : Twin s t)
    (hrun : StepRun.run BufferStream.step s calls = some s') :
    ∃ t', StepRun.run BufferStream.step t calls = some t' ∧ Twin s' t' := by
  refine StepRun.run_lockstep ?_ h hrun
  intro s t c s' h hstep
  exact h.step hstep

/-! ## What a reader sees first -/

/-- A new buffer on an array of equal bytes has readable bytes, all equal to them, unless
the water marks are equal. -/
theorem readable_init_replicate (z : UInt8) :
    (Buffer.init (Vector.replicate w.capacity z)).readable
      = List.replicate (w.highWater - w.lowWater) z := by
  have hord := Buffer.init_ordered (Vector.replicate w.capacity z)
  have hlen := hord.length_readable
  rw [hord.dirtySpaceSize_eq] at hlen
  refine List.eq_replicate_iff.mpr ⟨hlen, fun x hx => ?_⟩
  have hmem : x ∈ (Vector.replicate w.capacity z).toList :=
    List.mem_of_mem_drop (List.mem_of_mem_take hx)
  rw [Vector.toList_replicate] at hmem
  exact List.eq_of_mem_replicate hmem

/-- Some byte is not the first one of a list. -/
theorem exists_ne_head (bytes : List UInt8) : ∃ z, bytes.head? ≠ some z := by
  cases bytes with
  | nil => exact ⟨0, Option.some_ne_none 0 ∘ Eq.symm⟩
  | cons x bytes =>
      refine ⟨x + 1, fun heq => ?_⟩
      have hx : x = x + 1 := Option.some.inj heq
      simp at hx

/-- A run between different water marks that asks for bytes is given other bytes than the
written ones, for some contents of the array. -/
theorem exists_not_writtenOnly {storage : Vector UInt8 w.capacity} {calls : List Call}
    {s : BufferStream w} (hrun : StepRun.run step (init storage) calls = some s)
    (hmarks : w.lowWater < w.highWater) (hasked : (calls.map fun c : Call => asked c).sum ≠ 0) :
    ∃ (storage' : Vector UInt8 w.capacity) (s' : BufferStream w),
      StepRun.run step (init storage') calls = some s' ∧ ¬ WrittenOnly s' := by
  obtain ⟨z, hz⟩ := exists_ne_head s.appended
  have htwin : Twin (init storage) (init (Vector.replicate w.capacity z)) :=
    ⟨Buffer.init_ordered storage, ⟨rfl, rfl⟩, rfl⟩
  obtain ⟨s', hrun', h⟩ := htwin.run hrun
  refine ⟨_, s', hrun', fun hpre => ?_⟩
  have hinit := init_conserved (w := w) (Vector.replicate w.capacity z)
  have hlength := length_returned_run hinit hrun'
  -- the first byte returned is the `z` from the array, the first one written is another one
  obtain ⟨x, rest, hreturned⟩ : ∃ x rest, s'.returned = x :: rest := by
    apply List.exists_cons_of_ne_nil
    intro hnil
    rw [hnil] at hlength
    exact hasked (Nat.eq_zero_of_add_eq_zero_left hlength.symm)
  obtain ⟨n, hn⟩ : ∃ n, w.highWater - w.lowWater = n + 1 :=
    Nat.exists_eq_succ_of_ne_zero (by omega)
  have hcons := (hinit.run hrun').conserved
  rw [readable_init_replicate, hn, List.replicate_succ, hreturned] at hcons
  obtain rfl : x = z := (List.cons.inj hcons).1
  obtain ⟨later, hlater⟩ := hpre
  rw [h.appended_eq, ← hlater, hreturned] at hz
  exact hz rfl

/-- **When only written bytes are read.**  For all water marks and every run from a new buffer
that respects the space functions: whatever the array holds at first, what has been returned
is a prefix of what has been appended in every state of the run, if and only if the water
marks are equal or the run asks for no bytes. -/
theorem writtenOnly_iff (storage : Vector UInt8 w.capacity) (calls : List Call)
    (hrun : StepRun.run step (init storage) calls ≠ none) :
    (∀ storage' : Vector UInt8 w.capacity,
        StepRun.Always step WrittenOnly (init storage') calls) ↔
      w.lowWater = w.highWater ∨ (calls.map fun c : Call => asked c).sum = 0 := by
  constructor
  · -- the array that shows it is chosen after the bytes that the run appends
    intro hall
    by_contra hnot
    obtain ⟨hne, hasked⟩ := not_or.mp hnot
    obtain ⟨s, hs⟩ := Option.ne_none_iff_exists'.mp hrun
    obtain ⟨storage', s', hrun', hnotWritten⟩ :=
      exists_not_writtenOnly hs (lt_of_le_of_ne w.low_le_high hne) hasked
    exact hnotWritten (hall storage' calls List.prefix_rfl s' hrun')
  · rintro h storage' pre ⟨post, rfl⟩ s hs
    have hinit := init_conserved storage'
    rcases h with hmarks | hasked
    · have hord := Buffer.init_ordered storage'
      -- nothing is readable before the first `append`
      have hempty : (Buffer.init storage').readable = [] := by
        apply List.eq_nil_of_length_eq_zero
        rw [hord.length_readable, hord.dirtySpaceSize_eq]
        exact Nat.sub_eq_zero_of_le hmarks.ge
      exact ⟨s.buffer.readable, by rw [(hinit.run hs).conserved, hempty, List.nil_append]⟩
    · have hlength := length_returned_run hinit hs
      rw [List.map_append, List.sum_append] at hasked
      have hreturned : s.returned = [] := by
        apply List.eq_nil_of_length_eq_zero
        rw [hlength, Nat.eq_zero_of_add_eq_zero_right hasked]
        rfl
      unfold WrittenOnly
      rw [hreturned]
      exact List.nil_prefix

/-- The water marks of a buffer of four bytes, one of which can be read at first. -/
def oneReadable : WaterMarks := ⟨1, 2, 4, by decide, by decide, by decide⟩

/-- An array for `oneReadable`. -/
def fourZeros : Vector UInt8 oneReadable.capacity := Vector.replicate 4 0

/-- One byte is written, and two bytes are read. -/
def writeThenRead : List Call := [⟨.append [7], trivial⟩, ⟨.retrieveAs 2, trivial⟩]

theorem writtenOnly_iff_oneReadable :
    StepRun.run step (init fourZeros) writeThenRead ≠ none ∧
      ((∀ storage : Vector UInt8 oneReadable.capacity,
          StepRun.Always step WrittenOnly (init storage) writeThenRead) ↔
        oneReadable.lowWater = oneReadable.highWater ∨
          (writeThenRead.map fun c : Call => asked c).sum = 0) := by
  have hread : StepRun.run step (init fourZeros) writeThenRead
      = some ⟨⟨0, 0, #v[0, 0, 7, 0]⟩, [7], [0, 7]⟩ := by rfl
  have hrun : StepRun.run step (init fourZeros) writeThenRead ≠ none := by
    rw [hread]
    exact Option.some_ne_none _
  exact ⟨hrun, writtenOnly_iff fourZeros writeThenRead hrun⟩

/-- A byte that has never been written is read at once. -/
theorem not_writtenOnly_oneReadable :
    ¬ ∀ (w : WaterMarks) (storage : Vector UInt8 w.capacity) (calls : List Call),
      StepRun.Always step WrittenOnly (init storage) calls := by
  intro hall
  have halways := hall oneReadable fourZeros [⟨.retrieveAs 1, trivial⟩]
  have hread : StepRun.run step (init fourZeros) [⟨.retrieveAs 1, trivial⟩]
      = some ⟨⟨0, 0, fourZeros⟩, [], [0]⟩ := by rfl
  exact List.cons_ne_nil 0 [] (List.prefix_nil.mp (halways _ List.prefix_rfl _ hread))

end BufferStream
