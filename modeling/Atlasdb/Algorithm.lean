/-
# Folding ranges into a key set (`atlasdb/query/algorithm.h`)

`keysetAnd` and `keysetOr` go through a range of index entries and change a set of primary
keys.  The two loops of the source have the same body, so both add all the keys of the range
(`keysetAnd_eq_keysetOr`).  Each law of an intersection and a union has its own condition on a
range, and `dual_iff` says which lists of ranges hide that the two loops are one.
-/
import Mathlib

namespace Algorithm

variable {Ikey Key : Type*} [DecidableEq Key]

/-! ## The two loops -/

/-- `keyset_and(keys, range)`. -/
def keysetAnd (keys : Finset Key) (range : List (Ikey × Key)) : Finset Key :=
  range.foldl (fun keys it => insert it.2 keys) keys

/-- `keyset_or(keys, range)`. -/
def keysetOr (keys : Finset Key) (range : List (Ikey × Key)) : Finset Key :=
  range.foldl (fun keys it => insert it.2 keys) keys

/-- The set of the values in a range. -/
def values (range : List (Ikey × Key)) : Finset Key := (range.map Prod.snd).toFinset

/-- The loop of `keyset_or` adds the values of the range. -/
theorem keysetOr_eq (keys : Finset Key) (range : List (Ikey × Key)) :
    keysetOr keys range = keys ∪ values range := by
  induction range generalizing keys with
  | nil =>
      show keys = keys ∪ ∅
      rw [Finset.union_empty]
  | cons it range ih =>
      have hvalues : values (it :: range) = insert it.2 (values range) := by
        unfold values
        rw [List.map_cons, List.toFinset_cons]
      show keysetOr (insert it.2 keys) range = keys ∪ values (it :: range)
      rw [ih, hvalues, Finset.insert_union, Finset.union_insert]

/-- `keyset_and` does what `keyset_or` does. -/
theorem keysetAnd_eq_keysetOr :
    (keysetAnd : Finset Key → List (Ikey × Key) → Finset Key) = keysetOr := by
  funext keys range
  rfl

/-- A fold of `keyset_or` unites with the values of all the ranges. -/
theorem mem_foldl_keysetOr {keys : Finset Key} {ranges : List (List (Ikey × Key))} (k : Key) :
    k ∈ ranges.foldl keysetOr keys ↔ k ∈ keys ∨ ∃ range ∈ ranges, k ∈ values range := by
  induction ranges generalizing keys with
  | nil => simp
  | cons range ranges ih =>
      rw [List.foldl_cons, ih, keysetOr_eq, Finset.mem_union, List.exists_mem_cons_iff, or_assoc]

/-! ## The laws for one range -/

/-- `keyset_or` never removes a key. -/
theorem subset_keysetOr (keys : Finset Key) (range : List (Ikey × Key)) :
    keys ⊆ keysetOr keys range := by
  rw [keysetOr_eq]
  exact Finset.subset_union_left

/-- `keyset_and` adds no key exactly when there is none to add. -/
theorem keysetAnd_subset_iff (keys : Finset Key) (range : List (Ikey × Key)) :
    keysetAnd keys range ⊆ keys ↔ values range ⊆ keys := by
  rw [keysetAnd_eq_keysetOr, keysetOr_eq]
  constructor
  · intro h
    exact Finset.union_subset_right h
  · intro h
    exact Finset.union_subset (Finset.Subset.refl keys) h

/-- `keyset_and` intersects exactly when the range has the keys of the set. -/
theorem keysetAnd_eq_inter_iff (keys : Finset Key) (range : List (Ikey × Key)) :
    keysetAnd keys range = keys ∩ values range ↔ values range = keys := by
  rw [keysetAnd_eq_keysetOr, keysetOr_eq]
  constructor
  · intro h
    apply Finset.Subset.antisymm
    · intro k hk
      have hin : k ∈ keys ∩ values range := h ▸ Finset.mem_union_right keys hk
      exact (Finset.mem_inter.mp hin).1
    · intro k hk
      have hin : k ∈ keys ∩ values range := h ▸ Finset.mem_union_left (values range) hk
      exact (Finset.mem_inter.mp hin).2
  · intro h
    rw [h, Finset.union_self, Finset.inter_self]

/-- `keyset_and` with the keys of the set undoes `keyset_or` exactly when that has added none. -/
theorem keysetAnd_keysetOr_iff {keys : Finset Key} {same : List (Ikey × Key)}
    (hsame : values same = keys) (range : List (Ikey × Key)) :
    keysetAnd (keysetOr keys range) same = keys ↔ values range ⊆ keys := by
  rw [keysetAnd_eq_keysetOr, keysetOr_eq, keysetOr_eq, hsame, Finset.union_right_comm,
    Finset.union_self, Finset.union_eq_left]

/-! ## When they are dual -/

/-- From `keys`, the two loops over the ranges are an intersection and a union, one never
adds and the other never removes a key, and the first undoes the second. -/
structure Dual (keys : Finset Key) (ranges : List (List (Ikey × Key))) : Prop where
  and_meets : ∀ k, k ∈ ranges.foldl keysetAnd keys ↔
    k ∈ keys ∧ ∀ range ∈ ranges, k ∈ values range
  or_joins : ∀ k, k ∈ ranges.foldl keysetOr keys ↔
    k ∈ keys ∨ ∃ range ∈ ranges, k ∈ values range
  and_shrinks : ∀ range ∈ ranges, keysetAnd keys range ⊆ keys
  or_grows : ∀ range ∈ ranges, keys ⊆ keysetOr keys range
  absorbs : ∀ range ∈ ranges, ∀ same : List (Ikey × Key), values same = keys →
    keysetAnd (keysetOr keys range) same = keys

/-- **When the two loops are dual.**  For every key set and every list of ranges: if and only
if the values of each range are exactly the keys of the set. -/
theorem dual_iff (keys : Finset Key) (ranges : List (List (Ikey × Key))) :
    Dual keys ranges ↔ ∀ range ∈ ranges, values range = keys := by
  constructor
  · rintro ⟨hmeets, -, hshrinks, -, -⟩ range hrange
    apply Finset.Subset.antisymm
    · exact (keysetAnd_subset_iff keys range).mp (hshrinks range hrange)
    · -- a key that stays in the union is in every range, if the loop intersects
      intro k hk
      rw [keysetAnd_eq_keysetOr] at hmeets
      exact ((hmeets k).mp ((mem_foldl_keysetOr k).mpr (Or.inl hk))).2 range hrange
  · intro h
    refine ⟨fun k => ?_, mem_foldl_keysetOr, fun range hrange => ?_, fun range hrange => ?_,
      fun range hrange same hsame => ?_⟩
    · rw [keysetAnd_eq_keysetOr, mem_foldl_keysetOr]
      constructor
      · rintro (hk | ⟨range, hrange, hk⟩)
        · exact ⟨hk, fun range hrange => (h range hrange).symm ▸ hk⟩
        · have hkeys : k ∈ keys := h range hrange ▸ hk
          exact ⟨hkeys, fun range' hrange' => (h range' hrange').symm ▸ hkeys⟩
      · rintro ⟨hk, -⟩
        exact Or.inl hk
    · exact (keysetAnd_subset_iff keys range).mpr (h range hrange).subset
    · exact subset_keysetOr keys range
    · exact (keysetAnd_keysetOr_iff hsame range).mpr (h range hrange).subset

/-- `keyset_and` of the key 1 and a range with the value 2 adds the 2. -/
theorem not_dual_disjoint :
    ¬ ∀ (keys : Finset ℕ) (ranges : List (List (ℕ × ℕ))), Dual keys ranges := by
  intro hall
  obtain ⟨-, -, hshrinks, -, -⟩ := hall {1} [[(0, 2)]]
  have hadded : 2 ∈ keysetAnd {1} [(0, 2)] := by decide
  exact absurd (hshrinks [(0, 2)] List.mem_cons_self hadded) (by decide)

end Algorithm
