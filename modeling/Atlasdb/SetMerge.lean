/-
# The two-pointer merges of two ranges

`setIntersection` and `setUnion` are the standard merge loops over two ranges, with no
assumption on the ranges.  The second range is sorted in all results here; what the loops
compute for an unsorted first range is stated with its *records*, the elements that are
larger than everything in front of them (`mem_setIntersection`).
-/
import Mathlib

namespace SetMerge

variable {α : Type*} [LinearOrder α]

/-- The loop of `std::set_intersection`. -/
def setIntersection : List α → List α → List α
  | [], _ => []
  | _, [] => []
  | x :: xs, y :: ys =>
      if x < y then setIntersection xs (y :: ys)
      else if y < x then setIntersection (x :: xs) ys
      else x :: setIntersection xs ys
termination_by xs ys => xs.length + ys.length

/-- The loop of `std::set_union`, with the copies of the remainders. -/
def setUnion : List α → List α → List α
  | [], ys => ys
  | xs, [] => xs
  | x :: xs, y :: ys =>
      if x < y then x :: setUnion xs (y :: ys)
      else if y < x then y :: setUnion (x :: xs) ys
      else x :: setUnion xs ys
termination_by xs ys => xs.length + ys.length

/-- `z` is a record of the list: it occurs in it, and everything in front of its first
occurrence is smaller. -/
def IsRecord : List α → α → Prop
  | [], _ => False
  | x :: xs, z => z = x ∨ (x < z ∧ IsRecord xs z)

instance IsRecord.decidable : ∀ (xs : List α) (z : α), Decidable (IsRecord xs z)
  | [], _ => isFalse id
  | x :: xs, z =>
      have := IsRecord.decidable xs z
      inferInstanceAs (Decidable (z = x ∨ (x < z ∧ IsRecord xs z)))

/-- A record occurs in the list. -/
theorem IsRecord.mem {xs : List α} {z : α} (h : IsRecord xs z) : z ∈ xs := by
  induction xs with
  | nil => exact h.elim
  | cons x xs ih =>
      rcases h with rfl | ⟨-, hrest⟩
      · exact List.mem_cons_self
      · exact List.mem_cons_of_mem x (ih hrest)

/-- **What the intersection loop finds.**  Against a sorted range it outputs the elements
of that range that are records of the first one: an element of the first range that comes
behind a larger or an equal one is looked for when it has been passed already. -/
theorem mem_setIntersection {xs ys : List α} (hys : ys.Pairwise (· < ·)) (z : α) :
    z ∈ setIntersection xs ys ↔ z ∈ ys ∧ IsRecord xs z := by
  induction xs, ys using setIntersection.induct with
  | case1 ys =>
      rw [setIntersection]
      simp [IsRecord]
  | case2 xs hne =>
      rw [setIntersection]
      · simp
      · exact hne
  | case3 x xs y ys hlt ih =>
      -- `x` is smaller than the whole second range
      have hle : ∀ z ∈ y :: ys, x < z := by
        intro z hz
        rcases List.mem_cons.mp hz with rfl | hz
        · exact hlt
        · exact hlt.trans ((List.pairwise_cons.mp hys).1 z hz)
      rw [setIntersection, if_pos hlt, ih hys]
      constructor
      · rintro ⟨hz, hrec⟩
        exact ⟨hz, Or.inr ⟨hle z hz, hrec⟩⟩
      · rintro ⟨hz, rfl | ⟨-, hrec⟩⟩
        · exact absurd (hle z hz) (lt_irrefl z)
        · exact ⟨hz, hrec⟩
  | case4 x xs y ys hlt hgt ih =>
      -- `y` is smaller than every record of the first range
      rw [setIntersection, if_neg hlt, if_pos hgt, ih (List.pairwise_cons.mp hys).2]
      constructor
      · rintro ⟨hz, hrec⟩
        exact ⟨List.mem_cons_of_mem y hz, hrec⟩
      · rintro ⟨hz, hrec⟩
        refine ⟨?_, hrec⟩
        rcases List.mem_cons.mp hz with rfl | hz
        · rcases hrec with rfl | ⟨hxz, -⟩
          · exact absurd hgt (lt_irrefl z)
          · exact absurd (hxz.trans hgt) (lt_irrefl x)
        · exact hz
  | case5 x xs y ys hlt hgt ih =>
      obtain rfl : x = y := le_antisymm (not_lt.mp hgt) (not_lt.mp hlt)
      obtain ⟨hmin, hsorted⟩ := List.pairwise_cons.mp hys
      rw [setIntersection, if_neg hlt, if_neg hgt, List.mem_cons, ih hsorted]
      constructor
      · rintro (rfl | ⟨hz, hrec⟩)
        · exact ⟨List.mem_cons_self, Or.inl rfl⟩
        · exact ⟨List.mem_cons_of_mem x hz, Or.inr ⟨hmin z hz, hrec⟩⟩
      · rintro ⟨hz, rfl | ⟨hxz, hrec⟩⟩
        · exact Or.inl rfl
        · rcases List.mem_cons.mp hz with rfl | hz
          · exact absurd hxz (lt_irrefl z)
          · exact Or.inr ⟨hz, hrec⟩

/-- **What the union loop finds.**  Every element of either range, whatever their orders: the
loop only drops an element that it has just written. -/
theorem mem_setUnion {xs ys : List α} (z : α) : z ∈ setUnion xs ys ↔ z ∈ xs ∨ z ∈ ys := by
  induction xs, ys using setUnion.induct with
  | case1 ys => simp [setUnion]
  | case2 xs hne =>
      rw [setUnion]
      · simp
      · exact hne
  | case3 x xs y ys hlt ih =>
      rw [setUnion, if_pos hlt, List.mem_cons, ih, List.mem_cons (l := xs), or_assoc]
  | case4 x xs y ys hlt hgt ih =>
      rw [setUnion, if_neg hlt, if_pos hgt, List.mem_cons, ih, List.mem_cons (l := ys)]
      tauto
  | case5 x xs y ys hlt hgt ih =>
      obtain rfl : x = y := le_antisymm (not_lt.mp hgt) (not_lt.mp hlt)
      rw [setUnion, if_neg hlt, if_neg hgt, List.mem_cons, ih, List.mem_cons, List.mem_cons]
      tauto

end SetMerge
