/-
# The prepend reserve (`atlasdb/utility/buffer.h`)

A new buffer leaves `LowWater` bytes below its readable window, where `prepend` puts its
bytes.  The calls that take bytes out raise the lower index, except when they empty the
window: then `retrieve_all` sets both indices to 0 and the reserve is gone.
`reserveKept_iff` says that these are the only calls to lose it.
-/
import Atlasdb.Buffer

namespace BufferReserve

variable {w : WaterMarks}

/-! ## Runs without `prepend` -/

/-- The call is not a `prepend`. -/
def NoPrepend : Buffer.Call → Prop
  | .prepend _ => False
  | _ => True

/-- A call of one of the member functions that fill and drain a buffer. -/
abbrev Call := { c : Buffer.Call // NoPrepend c }

/-- One call; `none` is a store outside the array, where an `append` does not fit above the
window, or the failing assertion of `retrieve_as`. -/
def step (b : Buffer w) (c : Call) : Option (Buffer w) := (b.call c).map Prod.snd

/-- The call empties the window. -/
def Drains (b : Buffer w) : Buffer.Call → Prop
  | .append _ => False
  | .prepend _ => False
  | .retrieve len => b.dirtySpaceSize ≤ len
  | .retrieveAll => True
  | .retrieveAs len => len = b.dirtySpaceSize

/-! ## The reserve -/

/-- `prepend` of up to `LowWater` bytes does not wrap the lower index, keeps it below the
upper one, and puts the bytes in front of the readable ones. -/
def ReserveKept (b : Buffer w) : Prop :=
  ∀ data : List UInt8, data.length ≤ w.lowWater → ∃ b', b.prepend data = some b' ∧
    b'.iLow + data.length = b.iLow ∧ b'.iLow ≤ b'.iHigh ∧ b'.readable = data ++ b.readable

/-- `LowWater` bytes are free below the window. -/
structure Reserved (b : Buffer w) : Prop extends b.Ordered where
  reserve : w.lowWater ≤ b.iLow

/-- A new buffer has its reserve. -/
theorem init_reserved (storage : Vector UInt8 w.capacity) : Reserved (Buffer.init storage) where
  toOrdered := Buffer.init_ordered storage
  reserve := Nat.le_refl w.lowWater

/-- Where there is room, `prepend` lowers the lower index by the number of its bytes. -/
theorem iLow_prepend {b b' : Buffer w} (h : b.Ordered) {data : List UInt8}
    (hdata : data.length ≤ b.iLow) (hb' : b.prepend data = some b') :
    b'.iLow + data.length = b.iLow := by
  have hlow := h.low_le_high
  have hhigh := h.high_le_capacity
  have hcap := w.capacity_lt
  obtain ⟨a, -, rfl⟩ := Option.map_eq_some_iff.mp hb'
  show SizeT.sub b.iLow data.length + data.length = b.iLow
  rw [SizeT.sub_of_le (by omega) hdata, Nat.sub_add_cancel hdata]

/-- The reserve is what `prepend` needs. -/
theorem Reserved.reserveKept {b : Buffer w} (h : Reserved b) : ReserveKept b := by
  intro data hdata
  have hlow : data.length ≤ b.iLow := hdata.trans h.reserve
  obtain ⟨b', hb', hord, hread⟩ := Buffer.prepend_spec h.toOrdered hlow
  exact ⟨b', hb', iLow_prepend h.toOrdered hlow hb', hord.low_le_high, hread⟩

/-- Without free bytes below the window not even one byte can be prepended. -/
theorem not_reserveKept {b : Buffer w} (hlow : b.iLow = 0) (hmark : w.lowWater ≠ 0) :
    ¬ ReserveKept b := by
  intro hkept
  obtain ⟨b', -, hsum, -⟩ := hkept [0] (Nat.one_le_iff_ne_zero.mpr hmark)
  rw [hlow, List.length_singleton] at hsum
  exact Nat.succ_ne_zero b'.iLow hsum

/-! ## One step -/

/-- `retrieve` raises the lower index, or restarts both indices. -/
theorem iLow_retrieve {b : Buffer w} (h : b.Ordered) (len : ℕ) :
    (b.retrieve len).iLow = if len < b.dirtySpaceSize then b.iLow + len else 0 := by
  have hcap := w.capacity_lt
  have hhigh := h.high_le_capacity
  have hsize := h.dirtySpaceSize_eq
  unfold Buffer.retrieve
  split_ifs with hlen
  · exact SizeT.add_of_lt (by omega)
  · rfl

/-- A call that empties the window does not fail, and leaves the lower index at 0. -/
theorem step_of_drains {b : Buffer w} (h : b.Ordered) {c : Call} (hc : Drains b c) :
    ∃ b', step b c = some b' ∧ b'.iLow = 0 := by
  obtain ⟨c, hno⟩ := c
  cases c with
  | append data => exact hc.elim
  | prepend data => exact hc.elim
  | retrieve len =>
      refine ⟨b.retrieve len, rfl, ?_⟩
      rw [iLow_retrieve h, if_neg (Nat.not_lt.mpr hc)]
  | retrieveAll => exact ⟨b.retrieveAll, rfl, rfl⟩
  | retrieveAs len =>
      have hlen : len = b.dirtySpaceSize := hc
      refine ⟨b.retrieve len, ?_, ?_⟩
      · rw [step, Buffer.call, Buffer.retrieveAs_spec hlen.le, Option.map_some, Option.map_some]
      · rw [iLow_retrieve h, if_neg (by omega)]

/-- The other calls do not lower the index. -/
theorem iLow_le_of_not_drains {b b' : Buffer w} (h : b.Ordered) {c : Call}
    (hc : ¬ Drains b c) (hstep : step b c = some b') : b.iLow ≤ b'.iLow := by
  obtain ⟨r, hr, rfl⟩ := Option.map_eq_some_iff.mp hstep
  obtain ⟨c, hno⟩ := c
  cases c with
  | append data =>
      obtain ⟨b', hb', rfl⟩ := Option.map_eq_some_iff.mp hr
      obtain ⟨a, -, rfl⟩ := Option.map_eq_some_iff.mp hb'
      exact Nat.le_refl b.iLow
  | prepend data => exact hno.elim
  | retrieve len =>
      obtain rfl := Option.some.inj hr
      show b.iLow ≤ (b.retrieve len).iLow
      rw [iLow_retrieve h, if_pos (Nat.lt_of_not_le hc)]
      exact Nat.le_add_right b.iLow len
  | retrieveAll => exact absurd trivial hc
  | retrieveAs len =>
      obtain ⟨r', hr', rfl⟩ := Option.map_eq_some_iff.mp hr
      obtain ⟨hlen, rfl⟩ := Buffer.retrieveAs_inv hr'
      show b.iLow ≤ (b.retrieve len).iLow
      rw [iLow_retrieve h, if_pos (lt_of_le_of_ne hlen hc)]
      exact Nat.le_add_right b.iLow len

/-- A call that does not fail keeps the indices in order. -/
theorem ordered_step {b b' : Buffer w} (h : b.Ordered) {c : Call} (hstep : step b c = some b') :
    b'.Ordered := by
  obtain ⟨r, hr, rfl⟩ := Option.map_eq_some_iff.mp hstep
  exact (Buffer.call_inv h hr).2.1

/-! ## Whole runs -/

/-- **When the prepend reserve survives.**  For all water marks and every run from a new
buffer: in every state of it `prepend` finds its reserve, if and only if `LowWater` is 0 or
no call of the run empties the window. -/
theorem reserveKept_iff (storage : Vector UInt8 w.capacity) (calls : List Call) :
    StepRun.Always step ReserveKept (Buffer.init storage) calls ↔
      StepRun.Guarded step (fun b c => Drains b c → w.lowWater = 0) (Buffer.init storage)
        calls := by
  refine StepRun.always_iff_guarded (fun b => Reserved.reserveKept) ?_ ?_ (init_reserved storage)
  · intro b c b' h hcond hstep
    refine ⟨ordered_step h.toOrdered hstep, ?_⟩
    by_cases hc : Drains b c
    · -- the index restarts at 0, which is enough when there is no reserve
      rw [hcond hc]
      exact Nat.zero_le b'.iLow
    · exact h.reserve.trans (iLow_le_of_not_drains h.toOrdered hc hstep)
  · intro b c h hcond
    obtain ⟨hc, hmark⟩ := Classical.not_imp.mp hcond
    obtain ⟨b', hstep, hlow⟩ := step_of_drains h.toOrdered hc
    exact ⟨b', hstep, not_reserveKept hlow hmark⟩

/-- The water marks of a buffer of six bytes with a reserve of three. -/
def threeReserved : WaterMarks := ⟨3, 3, 6, by decide, by decide, by decide⟩

/-- After one byte has been written and read, the reserve is gone. -/
theorem not_reserveKept_drained :
    ¬ ∀ (w : WaterMarks) (storage : Vector UInt8 w.capacity) (calls : List Call),
      StepRun.Always step ReserveKept (Buffer.init storage) calls := by
  intro hall
  let calls : List Call := [⟨.append [7], trivial⟩, ⟨.retrieveAs 1, trivial⟩]
  have halways := hall threeReserved (Vector.replicate 6 0) calls
  obtain ⟨b, hrun, hlow⟩ : ∃ b, StepRun.run step
      (Buffer.init (Vector.replicate 6 0) : Buffer threeReserved) calls
        = some b ∧ b.iLow = 0 := ⟨⟨0, 0, #v[0, 0, 0, 7, 0, 0]⟩, by decide, rfl⟩
  exact not_reserveKept hlow (by decide) (halways _ List.prefix_rfl b hrun)

end BufferReserve
