/-
# Values under keys

A list of values with keys from a weak order is looked at key by key: the values that stand
under a key, in the order in which they stand (`bucket`).  What is put into a list in order, and
what is taken out of it, is described by what becomes of the buckets:

* `bucket_insertLast` : a value put after all values that are not greater comes last under its key;
* `bucket_insertNew` : a value put at the place of its key if the key has none;
* `bucket_eraseKey` : all values under a key are taken out;
* `eraseKey_of_cuts` : between the cuts below a key and up to it stand the values under the key.
-/
import Atlasdb.WeakOrder

namespace StrictWeakOrder

variable {κ α : Type*} (O : StrictWeakOrder κ) (key : α → κ)

/-- The values under a key, in the order in which they stand. -/
def bucket (k : κ) (l : List α) : List α := l.filter fun x => decide (O.Equivalent (key x) k)

/-- The list without the values under a key. -/
def eraseKey (k : κ) (l : List α) : List α := l.filter fun x => !decide (O.Equivalent (key x) k)

/-- The value put after all values that are not greater. -/
def insertLast (v : α) (l : List α) : List α :=
  l.takeWhile (O.upTo key (key v)) ++ v :: l.dropWhile (O.upTo key (key v))

/-- The value put at the place of its key, if there is none under the key. -/
def insertNew (v : α) (l : List α) : List α :=
  if (O.bucket key (key v) l).isEmpty then
    l.takeWhile (O.below key (key v)) ++ v :: l.dropWhile (O.below key (key v))
  else l

/-- At the place the value is in order with all others. -/
def InOrderAt (n : ℕ) (v : α) (l : List α) : Prop :=
  (∀ x ∈ l.take n, O.lt (key v) (key x) = false) ∧ ∀ x ∈ l.drop n, O.lt (key x) (key v) = false

instance (n : ℕ) (v : α) (l : List α) : Decidable (O.InOrderAt key n v l) :=
  inferInstanceAs (Decidable ((∀ x ∈ l.take n, O.lt (key v) (key x) = false) ∧
    ∀ x ∈ l.drop n, O.lt (key x) (key v) = false))

/-- The value put at the place, or else one further on, wherever it is in order there; else last
under its key. -/
def insertHinted (n : ℕ) (v : α) (l : List α) : List α :=
  if O.InOrderAt key n v l then l.take n ++ v :: l.drop n
  else if O.InOrderAt key (n + 1) v l then l.take (n + 1) ++ v :: l.drop (n + 1)
  else O.insertLast key v l

variable {O key}

theorem bucket_append (k : κ) (l m : List α) :
    O.bucket key k (l ++ m) = O.bucket key k l ++ O.bucket key k m := List.filter_append _ _

theorem eraseKey_append (k : κ) (l m : List α) :
    O.eraseKey key k (l ++ m) = O.eraseKey key k l ++ O.eraseKey key k m := List.filter_append l m

theorem mem_bucket {k : κ} {l : List α} {x : α} :
    x ∈ O.bucket key k l ↔ x ∈ l ∧ O.Equivalent (key x) k := by
  unfold bucket
  rw [List.mem_filter, decide_eq_true_iff]

theorem bucket_eq_nil {k : κ} {l : List α} :
    O.bucket key k l = [] ↔ ∀ x ∈ l, ¬O.Equivalent (key x) k := by
  unfold bucket
  rw [List.filter_eq_nil_iff]
  simp only [decide_eq_true_iff]

/-- Where nothing is under the key nothing is erased. -/
theorem eraseKey_eq_self {k : κ} {l : List α} (h : ∀ x ∈ l, ¬O.Equivalent (key x) k) :
    O.eraseKey key k l = l := by
  refine List.filter_eq_self.mpr fun x hx => ?_
  rw [decide_eq_false (h x hx)]
  rfl

/-- The buckets of equivalent keys are the same. -/
theorem bucket_congr {k k' : κ} (hk : O.Equivalent k k') (l : List α) :
    O.bucket key k l = O.bucket key k' l := by
  unfold bucket
  congr 1
  funext x
  rw [decide_eq_decide]
  exact ⟨fun h => h.trans hk, fun h => h.trans hk.symm⟩

/-- A value put anywhere: it stands under its own key only. -/
theorem bucket_insert (k : κ) (l m : List α) (v : α) :
    O.bucket key k (l ++ v :: m) =
      O.bucket key k l ++ (if O.Equivalent (key v) k then [v] else []) ++ O.bucket key k m := by
  rw [bucket_append, List.append_assoc]
  congr 1
  unfold bucket
  by_cases hv : O.Equivalent (key v) k
  · rw [List.filter_cons_of_pos (by simpa using hv), if_pos hv]
    rfl
  · rw [List.filter_cons_of_neg (by simpa using hv), if_neg hv]
    rfl

/-- In a list without equivalent keys a value is alone under its key. -/
theorem StrictlyOrdered.bucket_of_mem {l : List α} (h : O.StrictlyOrdered key l) {w : α} {k : κ}
    (hw : w ∈ l) (hequiv : O.Equivalent (key w) k) : O.bucket key k l = [w] := by
  have hmem : w ∈ O.bucket key k l := mem_bucket.mpr ⟨hw, hequiv⟩
  have hord : O.StrictlyOrdered key (O.bucket key k l) :=
    List.Pairwise.sublist List.filter_sublist h
  have hall : ∀ x ∈ O.bucket key k l, O.Equivalent (key x) k := fun x hx => (mem_bucket.mp hx).2
  cases hbucket : O.bucket key k l with
  | nil =>
      rw [hbucket] at hmem
      exact absurd hmem List.not_mem_nil
  | cons x m =>
      rw [hbucket] at hmem hord hall
      cases m with
      | nil => rw [List.mem_singleton.mp hmem]
      | cons y m =>
          have hxy : O.lt (key x) (key y) = true :=
            List.rel_of_pairwise_cons hord List.mem_cons_self
          have hx := hall x List.mem_cons_self
          have hy := hall y (List.mem_cons_of_mem _ List.mem_cons_self)
          exact absurd ((hx.trans hy.symm).1.symm.trans hxy) Bool.false_ne_true

theorem StrictlyOrdered.eraseKey {l : List α} (h : O.StrictlyOrdered key l) (k : κ) :
    O.StrictlyOrdered key (O.eraseKey key k l) := List.Pairwise.sublist List.filter_sublist h

/-! ## Putting values in -/

/-- **A value put in if its key has none.** -/
theorem bucket_insertNew (l : List α) (v : α) (k : κ) :
    O.bucket key k (O.insertNew key v l) =
      if O.Equivalent (key v) k ∧ O.bucket key k l = [] then [v] else O.bucket key k l := by
  unfold insertNew
  by_cases hnone : (O.bucket key (key v) l).isEmpty
  · rw [if_pos hnone, bucket_insert]
    rw [List.isEmpty_iff] at hnone
    have hl := congrArg (O.bucket key k) (List.takeWhile_append_dropWhile
      (p := O.below key (key v)) (l := l))
    rw [bucket_append] at hl
    by_cases hv : O.Equivalent (key v) k
    · rw [bucket_congr hv] at hnone
      rw [hnone] at hl
      obtain ⟨hbefore, hafter⟩ := List.append_eq_nil_iff.mp hl
      rw [hbefore, hafter, if_pos hv, if_pos ⟨hv, hnone⟩]
      rfl
    · rw [if_neg hv, if_neg fun h => hv h.1, List.append_nil, hl]
  · rw [if_neg hnone, if_neg]
    rintro ⟨hv, hnil⟩
    rw [bucket_congr hv, hnil] at hnone
    exact hnone rfl

theorem Ordered.insertLast {l : List α} (h : O.Ordered key l) (v : α) :
    O.Ordered key (O.insertLast key v l) := by
  have hcut := (h.downward_upTo (key v)).isCut_while
  refine Ordered.insert (by rw [List.takeWhile_append_dropWhile]; exact h) ?_ ?_
  · intro x hx
    simpa [upTo] using hcut.holds x hx
  · intro y hy
    refine O.asymm ?_
    simpa [upTo] using hcut.fails y hy

theorem StrictlyOrdered.insertNew {l : List α} (h : O.StrictlyOrdered key l) (v : α) :
    O.StrictlyOrdered key (O.insertNew key v l) := by
  have hcut := (h.ordered.downward_below (key v)).isCut_while
  unfold StrictWeakOrder.insertNew
  split
  · rename_i hnone
    rw [List.isEmpty_iff, bucket_eq_nil] at hnone
    refine StrictlyOrdered.insert (by rw [List.takeWhile_append_dropWhile]; exact h) hcut.holds ?_
    intro y hy
    have hmem : y ∈ l := (List.dropWhile_sublist _).subset hy
    cases hlt : O.lt (key v) (key y) with
    | true => rfl
    | false => exact absurd ⟨hcut.fails y hy, hlt⟩ (hnone y hmem)
  · exact h

/-! ## Taking values out -/

/-- What is below a key is up to it, so the cut below the key is not after the cut up to it. -/
theorem cuts_split {l r l' r' : List α} {k : κ} (hbelow : IsCut (O.below key k) l r)
    (hupTo : IsCut (O.upTo key k) l' r') (hsame : l ++ r = l' ++ r') :
    ∃ m, l' = l ++ m ∧ r = m ++ r' := by
  rcases List.append_eq_append_iff.mp hsame with ⟨m, hl, hr⟩ | ⟨m, hl, hr⟩
  · exact ⟨m, hl, hr⟩
  · cases m with
    | nil => exact ⟨[], by rw [List.append_nil, hl, List.append_nil], hr.symm⟩
    | cons x m =>
        have hlow : O.lt (key x) k = true := by
          refine hbelow.holds x ?_
          rw [hl]
          exact List.mem_append_right _ List.mem_cons_self
        have hhigh := hupTo.fails x (by rw [hr]; exact List.mem_cons_self)
        unfold upTo at hhigh
        rw [O.asymm hlow] at hhigh
        exact absurd hhigh.symm Bool.false_ne_true

/-- Between the cuts below a key and up to it stand the values under the key. -/
theorem eraseKey_of_cuts {l m r : List α} {k : κ} (hbelow : IsCut (O.below key k) l (m ++ r))
    (hupTo : IsCut (O.upTo key k) (l ++ m) r) :
    O.bucket key k (l ++ (m ++ r)) = m ∧ O.eraseKey key k (l ++ (m ++ r)) = l ++ r := by
  have hl : ∀ x ∈ l, ¬O.Equivalent (key x) k := by
    intro x hx hequiv
    have := hbelow.holds x hx
    unfold below at this
    rw [hequiv.1] at this
    exact Bool.false_ne_true this
  have hr : ∀ x ∈ r, ¬O.Equivalent (key x) k := by
    intro x hx hequiv
    have := hupTo.fails x hx
    unfold upTo at this
    rw [hequiv.2] at this
    exact Bool.false_ne_true this.symm
  have hm : ∀ x ∈ m, O.Equivalent (key x) k := by
    intro x hx
    have hlow := hbelow.fails x (List.mem_append_left _ hx)
    have hhigh := hupTo.holds x (List.mem_append_right _ hx)
    unfold upTo at hhigh
    rw [Bool.not_eq_true'] at hhigh
    exact ⟨hlow, hhigh⟩
  constructor
  · rw [bucket_append, bucket_append, bucket_eq_nil.mpr hl, bucket_eq_nil.mpr hr, List.append_nil,
      List.nil_append]
    exact List.filter_eq_self.mpr fun x hx => decide_eq_true (hm x hx)
  · have hnone : O.eraseKey key k m = [] := by
      refine List.filter_eq_nil_iff.mpr fun x hx => ?_
      rw [decide_eq_true (hm x hx)]
      exact Bool.false_ne_true
    rw [eraseKey_append, eraseKey_append, eraseKey_eq_self hl, hnone, eraseKey_eq_self hr,
      List.nil_append]

/-! ## Lists built from their values -/

/-- A value after all others comes last. -/
theorem insertLast_of_all {l : List α} {v : α} (h : ∀ x ∈ l, O.lt (key v) (key x) = false) :
    O.insertLast key v l = l ++ [v] := by
  have hall : ∀ x ∈ l, O.upTo key (key v) x = true := by
    intro x hx
    unfold upTo
    rw [h x hx]
    rfl
  unfold insertLast
  rw [List.takeWhile_eq_self_iff.mpr hall, List.dropWhile_eq_nil_iff.mpr hall]

theorem insertNew_of_all {l : List α} {v : α} (h : ∀ x ∈ l, O.lt (key x) (key v) = true) :
    O.insertNew key v l = l ++ [v] := by
  have hnone : O.bucket key (key v) l = [] := by
    refine bucket_eq_nil.mpr fun x hx hequiv => ?_
    exact Bool.false_ne_true (hequiv.1.symm.trans (h x hx))
  have hall : ∀ x ∈ l, O.below key (key v) x = true := h
  unfold insertNew
  rw [hnone, List.isEmpty_nil, if_pos rfl, List.takeWhile_eq_self_iff.mpr hall,
    List.dropWhile_eq_nil_iff.mpr hall]

/-- **Inserting the values of a list in its order gives the list.** -/
theorem foldl_insertLast {l m : List α} (h : O.Ordered key (l ++ m)) :
    m.foldl (fun l v => O.insertLast key v l) l = l ++ m := by
  induction m generalizing l with
  | nil => exact (List.append_nil l).symm
  | cons v m ih =>
      have hlast := insertLast_of_all fun x hx =>
        (List.pairwise_append.mp h).2.2 x hx v List.mem_cons_self
      rw [List.append_cons] at h
      rw [List.foldl_cons, hlast, ih h, List.append_assoc, List.singleton_append]

theorem foldl_insertNew {l m : List α} (h : O.StrictlyOrdered key (l ++ m)) :
    m.foldl (fun l v => O.insertNew key v l) l = l ++ m := by
  induction m generalizing l with
  | nil => exact (List.append_nil l).symm
  | cons v m ih =>
      have hlast := insertNew_of_all fun x hx =>
        (List.pairwise_append.mp h).2.2 x hx v List.mem_cons_self
      rw [List.append_cons] at h
      rw [List.foldl_cons, hlast, ih h, List.append_assoc, List.singleton_append]

end StrictWeakOrder
