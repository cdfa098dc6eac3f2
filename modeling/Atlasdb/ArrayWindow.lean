/-
# Windows of a fixed array and bounds-checked copies

A *window* of an array is the list of its elements between two indices.  The copy
loop `copyTo` stores a list of elements from an index on and fails as soon as a
store would fall outside the array; inside the array it replaces one window and
leaves the rest alone (`toList_of_copyTo`).
-/
import Mathlib

namespace ArrayWindow

variable {α : Type*} {n : ℕ}

/-- The elements of `a` at the indices `lo, …, hi - 1`. -/
def window (a : Vector α n) (lo hi : ℕ) : List α := (a.toList.take hi).drop lo

/-- The copy loop: store the elements one after the other from index `pos` on.  A
store outside the array makes the whole copy fail. -/
def copyTo (a : Vector α n) (pos : ℕ) : List α → Option (Vector α n)
  | [] => some a
  | x :: xs => if h : pos < n then copyTo (a.set pos x h) (pos + 1) xs else none

/-- A copy that fits succeeds, and replaces exactly the elements it covers. -/
theorem copyTo_of_le (a : Vector α n) (pos : ℕ) (xs : List α) (h : pos + xs.length ≤ n) :
    ∃ a', copyTo a pos xs = some a' ∧
      a'.toList = a.toList.take pos ++ xs ++ a.toList.drop (pos + xs.length) := by
  induction xs generalizing a pos with
  | nil => exact ⟨a, rfl, by simp⟩
  | cons x xs ih =>
      rw [List.length_cons] at h
      have hpos : pos < n := by omega
      obtain ⟨a', hcopy, hlist⟩ := ih (a.set pos x hpos) (pos + 1) (by omega)
      refine ⟨a', by rw [copyTo, dif_pos hpos, hcopy], ?_⟩
      have hlen : pos < a.toList.length := by simpa using hpos
      have htake : (a.toList.set pos x).take (pos + 1) = a.toList.take pos ++ [x] := by
        rw [List.take_set, List.take_add_one, List.getElem?_eq_getElem hlen]
        simp [hpos.le]
      have hdrop : (a.toList.set pos x).drop (pos + 1 + xs.length)
          = a.toList.drop (pos + 1 + xs.length) := by
        rw [List.drop_set_of_lt (by omega)]
      rw [hlist, Vector.toList_set, htake, hdrop, List.length_cons,
        show pos + 1 + xs.length = pos + (xs.length + 1) by omega]
      simp

/-- A copy from inside the array that does not fit fails. -/
theorem copyTo_of_lt (a : Vector α n) (pos : ℕ) (xs : List α) (hpos : pos ≤ n)
    (h : n < pos + xs.length) : copyTo a pos xs = none := by
  induction xs generalizing a pos with
  | nil =>
      rw [List.length_nil] at h
      omega
  | cons x xs ih =>
      rw [List.length_cons] at h
      rw [copyTo]
      split_ifs with hlt
      · exact ih (a.set pos x hlt) (pos + 1) hlt (by omega)
      · rfl

/-- From wherever it starts, a copy of at least one element that does not fit fails. -/
theorem copyTo_eq_none (a : Vector α n) (pos : ℕ) {xs : List α} (hxs : xs ≠ [])
    (h : n < pos + xs.length) : copyTo a pos xs = none := by
  obtain ⟨x, xs, rfl⟩ := List.exists_cons_of_ne_nil hxs
  rw [copyTo]
  split_ifs with hpos
  · rw [List.length_cons] at h
    exact copyTo_of_lt _ _ _ hpos (by omega)
  · rfl

/-- What a successful copy leaves in the array. -/
theorem toList_of_copyTo {a a' : Vector α n} {pos : ℕ} {xs : List α}
    (hfit : pos + xs.length ≤ n) (h : copyTo a pos xs = some a') :
    a'.toList = a.toList.take pos ++ xs ++ a.toList.drop (pos + xs.length) := by
  obtain ⟨b, hb, hlist⟩ := copyTo_of_le a pos xs hfit
  rw [h, Option.some.injEq] at hb
  rw [hb, hlist]

/-- The length of a window inside the array. -/
theorem length_window (a : Vector α n) (lo hi : ℕ) (h : hi ≤ n) :
    (window a lo hi).length = hi - lo := by
  rw [window, List.length_drop, List.length_take, Vector.length_toList,
    Nat.min_eq_left h]

/-- A window that ends before it begins is empty. -/
theorem window_of_le (a : Vector α n) {lo hi : ℕ} (h : hi ≤ lo) : window a lo hi = [] := by
  apply List.drop_eq_nil_of_le
  exact le_trans (List.length_take_le _ _) h

/-- Raising the lower index of a window drops its first elements. -/
theorem window_add (a : Vector α n) (lo hi k : ℕ) :
    window a (lo + k) hi = (window a lo hi).drop k := by
  unfold window
  rw [List.drop_drop]

/-- A copy right above a window extends it at the back. -/
theorem window_copyTo_above {a a' : Vector α n} {lo hi : ℕ} {xs : List α} (hlo : lo ≤ hi)
    (hfit : hi + xs.length ≤ n) (h : copyTo a hi xs = some a') :
    window a' lo (hi + xs.length) = window a lo hi ++ xs := by
  have hlen : (a.toList.take hi).length = hi := by
    rw [List.length_take, Vector.length_toList, Nat.min_eq_left (by omega)]
  have htake : (a.toList.take hi ++ xs ++ a.toList.drop (hi + xs.length)).take (hi + xs.length)
      = a.toList.take hi ++ xs :=
    List.take_left' (by rw [List.length_append, hlen])
  rw [window, toList_of_copyTo hfit h, htake, window,
    List.drop_append_of_le_length (by rw [hlen]; exact hlo)]

/-- A copy right below a window extends it at the front. -/
theorem window_copyTo_below {a a' : Vector α n} {pos hi : ℕ} {xs : List α}
    (hlo : pos + xs.length ≤ hi) (hhi : hi ≤ n) (h : copyTo a pos xs = some a') :
    window a' pos hi = xs ++ window a (pos + xs.length) hi := by
  have hfit : pos + xs.length ≤ n := by omega
  have hlen : (a.toList.take pos).length = pos := by
    rw [List.length_take, Vector.length_toList, Nat.min_eq_left (by omega)]
  rw [window, toList_of_copyTo hfit h, List.drop_take, List.append_assoc,
    List.drop_left' hlen, List.take_append, List.take_of_length_le (by omega), window,
    List.drop_take, Nat.sub_sub]

end ArrayWindow
