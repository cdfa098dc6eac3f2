/-
# Typed records (`atlasdb/utility/buffer.h`)

A record is written with `append(data, sizeof(T))` and taken out with `read<T>()`, which
looks at `sizeof(T)` bytes and then calls `retrieve<T>()`.  That function retrieves four
bytes, the size of an `int32_t`, for every `T`.  `readsBack_iff` says which records come back
in spite of it, and that their sizes alone ensure it only if all of them are four bytes
long, the last one at most.
-/
import Atlasdb.Buffer

/-- The bytes of a value of some plain type; no type has the size 0. -/
structure Record where
  bytes : List UInt8
  nonempty : bytes ≠ []

/-- `sizeof(T)` for the type of the record. -/
def Record.size (r : Record) : ℕ := r.bytes.length

/-! ## Writing and reading -/

namespace Buffer

variable {w : WaterMarks}

/-- `retrieve<T>()`, which asks for `sizeof(int32_t)` bytes. -/
def retrieveType (b : Buffer w) : Buffer w := b.retrieve 4

/-- `peek<T>()` for a type of the given size; `none` is the failing assertion. -/
def peek (b : Buffer w) (size : ℕ) : Option (List UInt8) :=
  if size ≤ b.dirtySpaceSize then some (b.peekBytes size) else none

/-- `read<T>()` for a type of the given size. -/
def read (b : Buffer w) (size : ℕ) : Option (List UInt8 × Buffer w) :=
  (b.peek size).map fun bytes => (bytes, b.retrieveType)

/-- The records are appended in order. -/
def appendAll (b : Buffer w) : List Record → Option (Buffer w)
  | [] => some b
  | r :: records => (b.append r.bytes).bind fun b => appendAll b records

/-- Records of the given sizes are read in order; the result is what is shown, and the
buffer afterwards. -/
def readAll (b : Buffer w) : List ℕ → Option (List (List UInt8) × Buffer w)
  | [] => some ([], b)
  | size :: sizes => (b.read size).bind fun shown =>
      (readAll shown.2 sizes).map fun rest => (shown.1 :: rest.1, rest.2)

/-- After the records have been appended, reading shows each of them and leaves the buffer
empty. -/
def ReadsBack (b : Buffer w) (records : List Record) : Prop :=
  ∃ b₁ b₂, b.appendAll records = some b₁ ∧
    b₁.readAll (records.map Record.size) = some (records.map Record.bytes, b₂) ∧
    b₂.dirtySpaceSize = 0

/-- The window is empty. -/
structure Empty (b : Buffer w) : Prop extends b.Ordered where
  low_eq_high : b.iLow = b.iHigh

/-- A new buffer is empty when its water marks are equal. -/
theorem init_empty (storage : Vector UInt8 w.capacity) (hmarks : w.lowWater = w.highWater) :
    (init storage).Empty where
  toOrdered := init_ordered storage
  low_eq_high := hmarks

/-- In an empty buffer nothing is readable. -/
theorem Empty.readable_eq_nil {b : Buffer w} (h : b.Empty) : b.readable = [] := by
  rw [h.toOrdered.readable_eq]
  exact ArrayWindow.window_of_le _ h.low_eq_high.ge

/-- An `append` takes its room from the space above the window. -/
theorem aboveHighWaterSize_append {b b' : Buffer w} (h : b.Ordered) {data : List UInt8}
    (hb' : b.append data = some b') :
    b'.aboveHighWaterSize + data.length = b.aboveHighWaterSize := by
  have hcap := w.capacity_lt
  have hhigh := h.high_le_capacity
  obtain ⟨hfits, hord, -⟩ := append_inv h hb'
  rw [h.aboveHighWaterSize_eq] at hfits ⊢
  rw [hord.aboveHighWaterSize_eq]
  obtain ⟨a, -, rfl⟩ := Option.map_eq_some_iff.mp hb'
  show w.capacity - SizeT.add b.iHigh data.length + data.length = w.capacity - b.iHigh
  rw [SizeT.add_of_lt (by omega)]
  omega

/-- With room for all records, appending them puts their bytes behind the readable ones. -/
theorem appendAll_spec {b : Buffer w} (h : b.Ordered) {records : List Record}
    (hroom : (records.map Record.size).sum ≤ b.aboveHighWaterSize) :
    ∃ b', b.appendAll records = some b' ∧ b'.Ordered ∧
      b'.readable = b.readable ++ records.flatMap Record.bytes := by
  induction records generalizing b with
  | nil => exact ⟨b, rfl, h, (List.append_nil _).symm⟩
  | cons r records ih =>
      rw [List.map_cons, List.sum_cons, Record.size] at hroom
      obtain ⟨c, hc, hord, hread⟩ := append_spec h (Nat.le_of_add_right_le hroom)
      have habove := aboveHighWaterSize_append h hc
      obtain ⟨b', hb', hord', hread'⟩ := ih hord (by omega)
      refine ⟨b', by rw [appendAll, hc, Option.bind_some, hb'], hord', ?_⟩
      rw [hread', hread, List.flatMap_cons, List.append_assoc]

/-- The bytes are the records, found in steps of four: each record begins what is left, of
which four bytes are dropped then, and nothing is left in the end. -/
def FoundInSteps : List (List UInt8) → List UInt8 → Prop
  | [], bytes => bytes = []
  | r :: records, bytes => r <+: bytes ∧ FoundInSteps records (bytes.drop 4)

/-- A record is shown exactly when it begins the readable bytes. -/
theorem readAll_cons_eq_iff {b b' : Buffer w} (h : b.Ordered) (r : List UInt8)
    (records : List (List UInt8)) (sizes : List ℕ) :
    b.readAll (r.length :: sizes) = some (r :: records, b') ↔
      r <+: b.readable ∧ (b.retrieve 4).readAll sizes = some (records, b') := by
  by_cases hsize : r.length ≤ b.dirtySpaceSize
  · have hpeek : b.peekBytes r.length = b.readable.take r.length :=
      congrArg Prod.fst (Option.some.inj ((if_pos hsize).symm.trans (retrieveAs_spec hsize)))
    have hread : b.read r.length = some (b.readable.take r.length, b.retrieve 4) := by
      rw [read, peek, if_pos hsize, Option.map_some, hpeek]
      rfl
    rw [readAll, hread, Option.bind_some, Option.map_eq_some_iff, List.prefix_iff_eq_take]
    constructor
    · rintro ⟨⟨shown, b''⟩, hrest, heq⟩
      obtain ⟨hcons, rfl⟩ := Prod.mk.inj heq
      obtain ⟨hshown, rfl⟩ := List.cons.inj hcons
      exact ⟨hshown.symm, hrest⟩
    · rintro ⟨hshown, hrest⟩
      refine ⟨(records, b'), hrest, ?_⟩
      rw [← hshown]
  · -- the assertion fails, and the record is longer than what is readable
    have hread : b.read r.length = none := by
      rw [read, peek, if_neg hsize, Option.map_none]
    rw [readAll, hread]
    constructor
    · intro heq
      exact absurd heq.symm (Option.some_ne_none _)
    · rintro ⟨hpre, -⟩
      exact absurd (h.length_readable ▸ hpre.length_le) hsize

/-- Reading shows the records and empties the buffer exactly when they are found in steps. -/
theorem readAll_eq_iff {b : Buffer w} (h : b.Ordered) (records : List (List UInt8)) :
    (∃ b', b.readAll (records.map List.length) = some (records, b') ∧ b'.dirtySpaceSize = 0) ↔
      FoundInSteps records b.readable := by
  induction records generalizing b with
  | nil =>
      show (∃ b', some ([], b) = some ([], b') ∧ b'.dirtySpaceSize = 0) ↔ b.readable = []
      rw [← List.length_eq_zero_iff, h.length_readable]
      simp
  | cons r records ih =>
      obtain ⟨hord, hread⟩ := retrieve_spec h 4
      rw [FoundInSteps, ← hread, ← ih hord, List.map_cons]
      -- what is shown first does not depend on the buffer that is left in the end
      simp only [readAll_cons_eq_iff h, and_assoc, exists_and_left]

/-- In an empty buffer with room, records are read back exactly when their bytes are found in
steps of four. -/
theorem readsBack_iff_foundInSteps {b : Buffer w} (h : b.Empty) {records : List Record}
    (hroom : (records.map Record.size).sum ≤ b.aboveHighWaterSize) :
    b.ReadsBack records ↔
      FoundInSteps (records.map Record.bytes) (records.map Record.bytes).flatten := by
  obtain ⟨b₁, hb₁, hord, hread⟩ := appendAll_spec h.toOrdered hroom
  rw [h.readable_eq_nil, List.nil_append, List.flatMap_def] at hread
  rw [← hread, ← readAll_eq_iff hord, List.map_map]
  constructor
  · rintro ⟨c, b₂, hc, hrest⟩
    obtain rfl : b₁ = c := Option.some.inj (hb₁.symm.trans hc)
    exact ⟨b₂, hrest⟩
  · rintro ⟨b₂, hrest⟩
    exact ⟨b₁, b₂, hb₁, hrest⟩

/-! ## Which records come back -/

/-- Steps of four find records that stand at the multiples of four in the bytes, if there are
no more than four bytes for each of them. -/
theorem foundInSteps_iff (records : List (List UInt8)) (bytes : List UInt8) :
    FoundInSteps records bytes ↔
      (∀ k (hk : k < records.length), records[k] <+: bytes.drop (4 * k)) ∧
        bytes.length ≤ 4 * records.length := by
  induction records generalizing bytes with
  | nil => simp [FoundInSteps]
  | cons r records ih =>
      have hcons : (r :: records).length = records.length + 1 := List.length_cons
      rw [FoundInSteps, ih, List.length_drop]
      constructor
      · rintro ⟨hpre, hrest, hlen⟩
        refine ⟨fun k hk => ?_, by omega⟩
        cases k with
        | zero => exact hpre
        | succ k =>
            have hk' := hrest k (Nat.lt_of_succ_lt_succ hk)
            rw [List.drop_drop] at hk'
            rw [List.getElem_cons_succ, Nat.mul_succ, Nat.add_comm]
            exact hk'
      · rintro ⟨hall, hlen⟩
        refine ⟨hall 0 (Nat.succ_pos _), fun k hk => ?_, by omega⟩
        have hk' := hall (k + 1) (Nat.succ_lt_succ hk)
        rw [List.getElem_cons_succ, Nat.mul_succ, Nat.add_comm] at hk'
        rw [List.drop_drop]
        exact hk'

/-- Every record stands at its multiple of four in the bytes of all of them, which are no
more than four for each. -/
structure InFours (records : List Record) : Prop where
  found : ∀ k (hk : k < records.length),
    records[k].bytes <+: (records.flatMap Record.bytes).drop (4 * k)
  length_le : (records.flatMap Record.bytes).length ≤ 4 * records.length

/-- All sizes are 4, but the last, which is at most 4. -/
def FourEach : List ℕ → Prop
  | [] => True
  | [size] => size ≤ 4
  | size :: size' :: sizes => size = 4 ∧ FourEach (size' :: sizes)

/-- Four bytes behind the start of some zeros there are as many ones as follow the zeros, only
if there are four zeros. -/
theorem eq_four_of_ones {size size' : ℕ} {rest : List UInt8} (hsize' : size' ≠ 0)
    (hrest : rest.count 1 = 0)
    (h : List.replicate size' 1
      <+: (List.replicate size 0 ++ (List.replicate size' 1 ++ rest)).drop 4) : size = 4 := by
  rw [List.drop_append, List.length_replicate, List.drop_replicate] at h
  rcases Nat.lt_trichotomy size 4 with hlt | heq | hgt
  · -- a one has been dropped
    have hcount := h.sublist.count_le 1
    have hdrop : (rest.drop (4 - size - size')).count 1 = 0 :=
      Nat.eq_zero_of_le_zero (hrest ▸ (List.drop_sublist _ rest).count_le 1)
    rw [List.drop_append, List.drop_replicate, List.length_replicate, List.count_append,
      List.count_append, hdrop] at hcount
    simp [List.count_replicate] at hcount
    omega
  · exact heq
  · -- a zero is left
    obtain ⟨n, hn⟩ : ∃ n, size - 4 = n + 1 := Nat.exists_eq_succ_of_ne_zero (by omega)
    obtain ⟨m, rfl⟩ := Nat.exists_eq_succ_of_ne_zero hsize'
    rw [hn, List.replicate_succ, List.replicate_succ, List.cons_append,
      List.cons_prefix_cons] at h
    exact absurd h.1 (by decide)

/-- Records of the given sizes are found in steps of four whatever their bytes, exactly when
the sizes are four each. -/
theorem forall_foundInSteps_iff (sizes : List ℕ) (hpos : ∀ size ∈ sizes, size ≠ 0) :
    (∀ records : List (List UInt8), records.map List.length = sizes →
        FoundInSteps records records.flatten) ↔ FourEach sizes := by
  induction sizes with
  | nil =>
      refine ⟨fun _ => trivial, fun _ records hsizes => ?_⟩
      obtain rfl := List.map_eq_nil_iff.mp hsizes
      rfl
  | cons size sizes ih =>
      cases sizes with
      | nil =>
          constructor
          · intro hall
            obtain ⟨-, hnil⟩ := hall [List.replicate size 0] (by simp)
            exact Nat.le_of_sub_eq_zero (by simpa [FoundInSteps] using hnil)
          · intro hsize records hsizes
            obtain ⟨r, rfl, rfl⟩ := List.map_eq_singleton_iff.mp hsizes
            rw [List.flatten_singleton]
            exact ⟨List.prefix_rfl, List.drop_eq_nil_of_le hsize⟩
      | cons size' sizes =>
          obtain ⟨hpos', hposRest⟩ := List.forall_mem_cons.mp hpos
          rw [FourEach, ← ih hposRest]
          constructor
          · intro hall
            -- zeros, then ones, then zeros again
            have hones := hall (List.replicate size 0 :: List.replicate size' 1 ::
              sizes.map fun size => List.replicate size 0) (by simp [Function.comp_def])
            have hfour : size = 4 := by
              refine eq_four_of_ones (hposRest size' List.mem_cons_self) ?_ hones.2.1
              simp [List.count_eq_zero]
            refine ⟨hfour, fun records hsizes => ?_⟩
            obtain ⟨-, hrest⟩ := hall (List.replicate size 0 :: records) (by simp [hsizes])
            rwa [List.flatten_cons, List.drop_left' (by simp [hfour])] at hrest
          · rintro ⟨hfour, hall⟩ records hsizes
            obtain ⟨r, records, rfl, rfl, hrest⟩ := List.map_eq_cons_iff.mp hsizes
            refine ⟨List.prefix_append r records.flatten, ?_⟩
            rw [List.flatten_cons, List.drop_left' hfour]
            exact hall records hrest

/-- Bytes that can be those of records are. -/
theorem exists_records {records : List (List UInt8)}
    (h : ∀ size ∈ records.map List.length, size ≠ 0) :
    ∃ records' : List Record, records'.map Record.bytes = records := by
  induction records with
  | nil => exact ⟨[], rfl⟩
  | cons r records ih =>
      rw [List.map_cons, List.forall_mem_cons] at h
      obtain ⟨records', hrecords'⟩ := ih h.2
      refine ⟨⟨r, fun hnil => h.1 (by rw [hnil, List.length_nil])⟩ :: records', ?_⟩
      rw [List.map_cons, hrecords']

/-- The sizes of records are the lengths of their bytes. -/
theorem map_size_eq (records : List Record) :
    records.map Record.size = (records.map Record.bytes).map List.length := by
  rw [List.map_map]
  rfl

/-- **Which records are read back.**  For every empty buffer, such as a new one with equal
water marks, and all records that it has room for: the records are shown as they were
appended, and leave the buffer empty, if and only if they stand at the multiples of four in
their bytes and fill them; and all records of the same sizes do so if and only if the sizes
are 4, the last one at most 4. -/
theorem readsBack_iff {b : Buffer w} (h : b.Empty) (records : List Record)
    (hroom : (records.map Record.size).sum ≤ b.aboveHighWaterSize) :
    (b.ReadsBack records ↔ InFours records) ∧
      ((∀ records' : List Record, records'.map Record.size = records.map Record.size →
          b.ReadsBack records') ↔ FourEach (records.map Record.size)) := by
  constructor
  · rw [readsBack_iff_foundInSteps h hroom, foundInSteps_iff, ← List.flatMap_def]
    constructor
    · rintro ⟨hfound, hlen⟩
      rw [List.length_map] at hlen
      refine ⟨fun k hk => ?_, hlen⟩
      have hk' := hfound k (by rwa [List.length_map])
      rwa [List.getElem_map] at hk'
    · rintro ⟨hfound, hlen⟩
      refine ⟨fun k hk => ?_, by rwa [List.length_map]⟩
      rw [List.getElem_map]
      exact hfound k _
  · -- other records of these sizes need the same room
    have hpos : ∀ size ∈ records.map Record.size, size ≠ 0 := by
      intro size hsize
      obtain ⟨r, -, rfl⟩ := List.mem_map.mp hsize
      exact fun hzero => r.nonempty (List.eq_nil_of_length_eq_zero hzero)
    rw [← forall_foundInSteps_iff _ hpos]
    constructor
    · intro hall bytes hsizes
      obtain ⟨records', rfl⟩ := exists_records (hsizes ▸ hpos)
      rw [← map_size_eq] at hsizes
      have hread := hall records' hsizes
      rwa [readsBack_iff_foundInSteps h (hsizes ▸ hroom)] at hread
    · intro hall records' hsizes
      rw [readsBack_iff_foundInSteps h (hsizes ▸ hroom)]
      exact hall _ (by rw [← map_size_eq, hsizes])

/-- The water marks of a buffer of sixteen bytes that is empty at first. -/
def sixteen : WaterMarks := ⟨0, 0, 16, by decide, by decide, by decide⟩

/-- A new buffer of sixteen bytes. -/
def newSixteen : Buffer sixteen := init (Vector.replicate 16 0)

/-- A record of four bytes and one of two. -/
def fourAndTwo : List Record := [⟨[1, 2, 3, 4], by decide⟩, ⟨[5, 6], by decide⟩]

theorem readsBack_iff_newSixteen :
    newSixteen.Empty ∧ (fourAndTwo.map Record.size).sum ≤ newSixteen.aboveHighWaterSize ∧
      (newSixteen.ReadsBack fourAndTwo ↔ InFours fourAndTwo) ∧
      ((∀ records : List Record, records.map Record.size = fourAndTwo.map Record.size →
          newSixteen.ReadsBack records) ↔ FourEach (fourAndTwo.map Record.size)) := by
  have hempty : newSixteen.Empty := init_empty _ rfl
  have hroom : (fourAndTwo.map Record.size).sum ≤ newSixteen.aboveHighWaterSize := by decide
  exact ⟨hempty, hroom, readsBack_iff hempty fourAndTwo hroom⟩

/-- A record of eight bytes. -/
def eight : List Record := [⟨[1, 2, 3, 4, 5, 6, 7, 8], by decide⟩]

/-- A record of eight bytes leaves four of them in the buffer. -/
theorem not_readsBack_eight :
    ¬ ∀ (w : WaterMarks) (storage : Vector UInt8 w.capacity) (records : List Record),
      w.lowWater = w.highWater →
      (records.map Record.size).sum ≤ (init storage : Buffer w).aboveHighWaterSize →
      (init storage : Buffer w).ReadsBack records := by
  intro hall
  have hempty : newSixteen.Empty := init_empty _ rfl
  have hroom : (eight.map Record.size).sum ≤ newSixteen.aboveHighWaterSize := by decide
  have hread : newSixteen.ReadsBack eight := hall sixteen (Vector.replicate 16 0) eight rfl hroom
  rw [readsBack_iff_foundInSteps hempty hroom] at hread
  obtain ⟨-, hnil⟩ := hread
  exact List.cons_ne_nil _ _ hnil

end Buffer
