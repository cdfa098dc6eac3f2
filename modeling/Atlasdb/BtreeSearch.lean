/-
# Searching a node of a B-tree (`storage/btree/btree.h`)

The parameters of a `btree` and the searches over the keys of one node.  A node searches
linearly when its keys are numbers and by bisection otherwise, and compares keys either with a
plain comparison or with a three-way one, which lets the search report in its result that it
met the key itself (`kExactMatch`).  On keys in order all of them find the same place:

* `lowerBound_eq`, `upperBound_eq` : the number of keys below `k`, and of keys up to `k`;
* `searches_agree` : so it makes no difference which of them a node uses.
-/
import Atlasdb.WeakOrder

/-! ## Comparisons -/

/-- A comparison derived from `btree_key_compare_to_tag`: negative for less, zero for
equal, positive for greater. -/
structure CompareTo (κ : Type) where
  compare : κ → κ → ℤ
  swap : ∀ a b, compare a b < 0 ↔ 0 < compare b a
  trans : ∀ {a b c}, compare a b < 0 → compare b c < 0 → compare a c < 0
  cotrans : ∀ {a c} b, compare a c < 0 → compare a b < 0 ∨ compare b c < 0

/-- `btree_key_comparer<Key, Compare, true>`: the plain comparison of a three-way one. -/
def CompareTo.order {κ : Type} (comp : CompareTo κ) : StrictWeakOrder κ where
  lt x y := decide (comp.compare x y < 0)
  irrefl a := by
    have := comp.swap a a
    simp only [decide_eq_false_iff_not]
    omega
  trans := by
    intro a b c hab hbc
    simp only [decide_eq_true_eq] at hab hbc ⊢
    exact comp.trans hab hbc
  cotrans := by
    intro a c b hac
    simp only [decide_eq_true_eq] at hac ⊢
    exact comp.cotrans b hac

/-- `key_compare`: a plain comparison functor or a three-way one. -/
inductive KeyCompare (κ : Type) where
  | plain (comp : StrictWeakOrder κ)
  | compareTo (comp : CompareTo κ)

/-- `compare_keys`, whichever the functor is. -/
def KeyCompare.order {κ : Type} : KeyCompare κ → StrictWeakOrder κ
  | plain comp => comp
  | compareTo comp => comp.order

/-- The parameters of a `btree`. -/
structure BtreeParams (κ α : Type) where
  /-- `params_type::key` -/
  key : α → κ
  keyCompare : KeyCompare κ
  /-- The keys are integral or floating point numbers. -/
  arithmeticKey : Bool
  kNodeTargetValues : ℕ
  /-- `target_node_size_too_large`: the count of a full node fits its field. -/
  fits : max 3 kNodeTargetValues < 2 ^ 16

namespace BtreeParams

variable {κ α : Type} (P : BtreeParams κ α)

/-- `kNodeValues`: splitting a node takes three values at least. -/
def kNodeValues : ℕ := if 3 ≤ P.kNodeTargetValues then P.kNodeTargetValues else 3

theorem three_le_kNodeValues : 3 ≤ P.kNodeValues := by
  unfold kNodeValues
  split <;> omega

theorem kNodeValues_lt : P.kNodeValues < 2 ^ 16 := by
  have := P.fits
  unfold kNodeValues
  split <;> omega

/-- `kMinNodeValues` -/
def kMinNodeValues : ℕ := P.kNodeValues / 2

/-- `compare_keys(x, y)` -/
abbrev order : StrictWeakOrder κ := P.keyCompare.order

end BtreeParams

/-- `btree_set<int>`, with nodes of three values. -/
def smallSet : BtreeParams ℤ ℤ := ⟨id, .plain (.less ℤ), true, 3, by decide⟩

/-- `kExactMatch` -/
def kExactMatch : ℕ := 2 ^ 30

/-- `kMatchMask` -/
def kMatchMask : ℕ := kExactMatch - 1

namespace BtreeSearch

section Loops

variable {κ : Type} (keys : List κ) (k : κ)

/-- `linear_search_plain_compare` -/
def linearSearchPlainCompare (comp : κ → κ → Bool) (s e : ℕ) (he : e ≤ keys.length) : ℕ :=
  if h : s < e then
    if !comp keys[s] k then s
    else linearSearchPlainCompare comp (s + 1) e he
  else s
termination_by e - s

/-- `linear_search_compare_to` -/
def linearSearchCompareTo (comp : κ → κ → ℤ) (s e : ℕ) (he : e ≤ keys.length) : ℕ :=
  if h : s < e then
    let c := comp keys[s] k
    if c = 0 then s ||| kExactMatch
    else if c > 0 then s
    else linearSearchCompareTo comp (s + 1) e he
  else s
termination_by e - s

/-- `binary_search_plain_compare` -/
def binarySearchPlainCompare (comp : κ → κ → Bool) (s e : ℕ) (hs : s ≤ e)
    (he : e ≤ keys.length) : ℕ :=
  if h : s = e then s
  else
    let mid := (s + e) / 2
    have hmid : mid < keys.length := by omega
    if comp keys[mid] k then binarySearchPlainCompare comp (mid + 1) e (by omega) he
    else binarySearchPlainCompare comp s mid (by omega) (by omega)
termination_by e - s

/-- `binary_search_compare_to` -/
def binarySearchCompareTo (comp : κ → κ → ℤ) (s e : ℕ) (hs : s ≤ e)
    (he : e ≤ keys.length) : ℕ :=
  if h : s = e then s
  else
    let mid := (s + e) / 2
    have hmid : mid < keys.length := by omega
    let c := comp keys[mid] k
    if c < 0 then binarySearchCompareTo comp (mid + 1) e (by omega) he
    else if c > 0 then binarySearchCompareTo comp s mid (by omega) (by omega)
    else
      -- the first equal key may come before `mid`
      binarySearchCompareTo comp s mid (by omega) (by omega) ||| kExactMatch
termination_by e - s

end Loops

/-! ## What the searches find -/

/-- In `[s, e)` the test holds up to `r` and fails from `r` on. -/
structure IsPlace {κ : Type} (p : κ → Bool) (keys : List κ) (s e r : ℕ) : Prop where
  ge : s ≤ r
  le : r ≤ e
  holds : ∀ i (h : i < keys.length), s ≤ i → i < r → p keys[i] = true
  fails : ∀ i (h : i < keys.length), r ≤ i → i < e → p keys[i] = false

section Places

variable {κ : Type} {p : κ → Bool} {keys : List κ} {s e r : ℕ}

/-- Among all the keys the place is the number of those that pass the test. -/
theorem IsPlace.eq_length (h : IsPlace p keys 0 keys.length r) :
    r = (keys.takeWhile p).length := by
  have hcut : IsCut p (keys.take r) (keys.drop r) := by
    constructor
    · intro x hx
      obtain ⟨i, hi, rfl⟩ := List.getElem_of_mem hx
      rw [List.length_take] at hi
      rw [List.getElem_take]
      exact h.holds i (by omega) (Nat.zero_le i) (by omega)
    · intro x hx
      obtain ⟨i, hi, rfl⟩ := List.getElem_of_mem hx
      rw [List.length_drop] at hi
      rw [List.getElem_drop]
      exact h.fails (r + i) (by omega) (by omega) (by omega)
  have htake := hcut.eq_while.1
  rw [List.take_append_drop] at htake
  rw [← htake, List.length_take, Nat.min_eq_left h.le]

/-- A place further on is a place from here, when the test holds in between. -/
theorem IsPlace.of_le {s' : ℕ} (h : IsPlace p keys s' e r) (hs : s ≤ s')
    (hbefore : ∀ i (hi : i < keys.length), s ≤ i → i < s' → p keys[i] = true) :
    IsPlace p keys s e r := by
  refine ⟨hs.trans h.ge, h.le, fun i hi hsi hir => ?_, h.fails⟩
  rcases Nat.lt_or_ge i s' with his | his
  · exact hbefore i hi hsi his
  · exact h.holds i hi his hir

/-- A place before `e'` is a place before `e`, when the test fails in between. -/
theorem IsPlace.of_ge {e' : ℕ} (h : IsPlace p keys s e' r) (he : e' ≤ e)
    (hafter : ∀ i (hi : i < keys.length), e' ≤ i → i < e → p keys[i] = false) :
    IsPlace p keys s e r := by
  refine ⟨h.ge, h.le.trans he, h.holds, fun i hi hri hie => ?_⟩
  rcases Nat.lt_or_ge i e' with hie' | hie'
  · exact h.fails i hi hri hie'
  · exact hafter i hi hie' hie

/-- The place at the very start: the test fails at `s` already. -/
theorem IsPlace.start (hs : s ≤ e)
    (hafter : ∀ i (hi : i < keys.length), s ≤ i → i < e → p keys[i] = false) :
    IsPlace p keys s e s :=
  ⟨Nat.le_refl s, hs, fun _ _ hsi his => absurd (hsi.trans_lt his) (Nat.lt_irrefl s), hafter⟩

/-- Along a downward test what passes at `j` passes at every smaller index. -/
theorem holds_of_le (h : Downward p keys) {j : ℕ} (hj : j < keys.length) (hp : p keys[j] = true)
    (i : ℕ) (hi : i < keys.length) (hij : i ≤ j) : p keys[i] = true := by
  rcases Nat.lt_or_eq_of_le hij with hlt | rfl
  · exact List.pairwise_iff_getElem.mp h i j hi hj hlt hp
  · exact hp

/-- Along a downward test what fails at `j` fails at every greater index. -/
theorem fails_of_ge (h : Downward p keys) {j : ℕ} (hj : j < keys.length) (hp : p keys[j] = false)
    (i : ℕ) (hi : i < keys.length) (hij : j ≤ i) : p keys[i] = false := by
  cases hpi : p keys[i] with
  | false => rfl
  | true => exact (holds_of_le h hi hpi j hj hij).symm.trans hp

end Places

section Plain

variable {κ : Type} {keys : List κ} {k : κ} {comp : κ → κ → Bool}

theorem linearSearchPlainCompare_isPlace (h : Downward (fun x => comp x k) keys) {s e : ℕ}
    (hs : s ≤ e) (he : e ≤ keys.length) :
    IsPlace (fun x => comp x k) keys s e (linearSearchPlainCompare keys k comp s e he) := by
  fun_induction linearSearchPlainCompare keys k comp s e he with
  | case1 s hlt hstop =>
      rw [Bool.not_eq_true'] at hstop
      exact IsPlace.start hs fun i hi hsi _ =>
        fails_of_ge h (p := fun x => comp x k) (by omega) hstop i hi hsi
  | case2 s hlt hgo ih =>
      rw [Bool.not_eq_true', Bool.not_eq_false] at hgo
      refine (ih (by omega)).of_le (by omega) fun i hi hsi his => ?_
      obtain rfl : i = s := by omega
      exact hgo
  | case3 s hge =>
      exact IsPlace.start hs fun _ _ hsi hie => absurd (hsi.trans_lt hie) hge

theorem binarySearchPlainCompare_isPlace (h : Downward (fun x => comp x k) keys) {s e : ℕ}
    (hs : s ≤ e) (he : e ≤ keys.length) :
    IsPlace (fun x => comp x k) keys s e (binarySearchPlainCompare keys k comp s e hs he) := by
  fun_induction binarySearchPlainCompare keys k comp s e hs he with
  | case1 s hs he =>
      exact IsPlace.start (Nat.le_refl s) fun i _ hsi his =>
        absurd (hsi.trans_lt his) (Nat.lt_irrefl s)
  | case2 s e hs he hne mid hmid hright ih =>
      refine ih.of_le (by omega) fun i hi _ his => ?_
      exact holds_of_le h (p := fun x => comp x k) hmid hright i hi (by omega)
  | case3 s e hs he hne mid hmid hleft ih =>
      rw [Bool.not_eq_true] at hleft
      refine ih.of_ge (by omega) fun i hi hmi _ => ?_
      exact fails_of_ge h (p := fun x => comp x k) hmid hleft i hi hmi

end Plain
section Compared

variable {κ : Type} {keys : List κ} {k : κ} {comp : CompareTo κ}

/-- At the place `r`, still before `e`, stands a key equal to `k`. -/
def MatchAt (comp : CompareTo κ) (keys : List κ) (k : κ) (e r : ℕ) : Prop :=
  r < e ∧ ∃ h : r < keys.length, comp.compare keys[r] k = 0

instance (comp : CompareTo κ) (keys : List κ) (k : κ) (e r : ℕ) :
    Decidable (MatchAt comp keys k e r) :=
  inferInstanceAs (Decidable (r < e ∧ ∃ h : r < keys.length, comp.compare keys[r] k = 0))

/-- The result of a three-way search: the place, flagged when the key itself is there. -/
def IsResult (comp : CompareTo κ) (keys : List κ) (k : κ) (s e res : ℕ) : Prop :=
  ∃ r, IsPlace (fun x => decide (comp.compare x k < 0)) keys s e r ∧
    res = if MatchAt comp keys k e r then r ||| kExactMatch else r

/-- Keys in order are compared with `k` downwards. -/
theorem downward_compare (h : comp.order.Ordered id keys) :
    Downward (fun x => decide (comp.compare x k < 0)) keys := h.downward_below k

theorem linearSearchCompareTo_isResult (h : comp.order.Ordered id keys) {s e : ℕ} (hs : s ≤ e)
    (he : e ≤ keys.length) :
    IsResult comp keys k s e (linearSearchCompareTo keys k comp.compare s e he) := by
  have hstart : ∀ s, (hs : s < keys.length) → s ≤ e → ¬ comp.compare keys[s] k < 0 →
      IsPlace (fun x => decide (comp.compare x k < 0)) keys s e s := fun s hs hse hc =>
    IsPlace.start hse fun i hi hsi _ =>
      fails_of_ge (downward_compare h) hs (decide_eq_false hc) i hi hsi
  fun_induction linearSearchCompareTo keys k comp.compare s e he with
  | case1 s hlt c hc =>
      refine ⟨s, hstart s (by omega) hs (by omega), ?_⟩
      rw [if_pos ⟨hlt, by omega, hc⟩]
  | case2 s hlt c hne hpos =>
      refine ⟨s, hstart s (by omega) hs (by omega), ?_⟩
      rw [if_neg]
      rintro ⟨_, _, hzero⟩
      exact hne hzero
  | case3 s hlt c hne hneg ih =>
      obtain ⟨r, hr, hres⟩ := ih (by omega)
      refine ⟨r, hr.of_le (by omega) fun i hi hsi his => ?_, hres⟩
      obtain rfl : i = s := by omega
      exact decide_eq_true (by omega)
  | case4 s hge =>
      refine ⟨s, IsPlace.start hs fun _ _ hsi hie => absurd (hsi.trans_lt hie) hge, ?_⟩
      rw [if_neg]
      rintro ⟨hlt, _⟩
      exact hge hlt

/-- Between the place of `k` and a key equal to `k` all keys are equal to `k`. -/
theorem compare_eq_zero_of_le (h : comp.order.Ordered id keys) {r mid : ℕ}
    (hmid : mid < keys.length) (hzero : comp.compare keys[mid] k = 0) (hrm : r < mid)
    (hr : ¬ comp.compare keys[r] k < 0) : comp.compare keys[r] k = 0 := by
  have horder : ¬ comp.compare keys[mid] keys[r] < 0 :=
    of_decide_eq_false (List.pairwise_iff_getElem.mp h r mid (by omega) hmid hrm)
  have hkr : ¬ comp.compare k keys[r] < 0 := by
    intro hlt
    rcases comp.cotrans keys[mid] hlt with hkm | hmr
    · have := (comp.swap k keys[mid]).mp hkm
      omega
    · exact horder hmr
  have := comp.swap k keys[r]
  omega

theorem binarySearchCompareTo_isResult (h : comp.order.Ordered id keys) {s e : ℕ} (hs : s ≤ e)
    (he : e ≤ keys.length) :
    IsResult comp keys k s e (binarySearchCompareTo keys k comp.compare s e hs he) := by
  fun_induction binarySearchCompareTo keys k comp.compare s e hs he with
  | case1 s hs he =>
      refine ⟨s, IsPlace.start (Nat.le_refl s) fun _ _ hsi his =>
        absurd (hsi.trans_lt his) (Nat.lt_irrefl s), ?_⟩
      rw [if_neg]
      rintro ⟨hlt, _⟩
      omega
  | case2 s e hs he hne mid hmid c hneg ih =>
      obtain ⟨r, hr, hres⟩ := ih
      refine ⟨r, hr.of_le (by omega) fun i hi _ his => ?_, hres⟩
      exact holds_of_le (downward_compare h) hmid (decide_eq_true hneg) i hi (by omega)
  | case3 s e hs he hne mid hmid c hneg hpos ih =>
      obtain ⟨r, hr, hres⟩ := ih
      refine ⟨r, hr.of_ge (by omega) fun i hi hmi _ => ?_, ?_⟩
      · exact fails_of_ge (downward_compare h) hmid (decide_eq_false hneg) i hi hmi
      · -- at `mid` itself the key is greater than `k`
        have hiff : MatchAt comp keys k mid r ↔ MatchAt comp keys k e r := by
          constructor
          · rintro ⟨hlt, hmatch⟩
            exact ⟨by omega, hmatch⟩
          · rintro ⟨hlt, hlen, hzero⟩
            refine ⟨Nat.lt_of_le_of_ne hr.le ?_, hlen, hzero⟩
            rintro rfl
            omega
        rw [hres]
        simp only [hiff]
  | case4 s e hs he hne mid hmid c hneg hpos ih =>
      obtain ⟨r, hr, hres⟩ := ih
      have hzero : comp.compare keys[mid] k = 0 := by omega
      refine ⟨r, hr.of_ge (by omega) fun i hi hmi _ => ?_, ?_⟩
      · exact fails_of_ge (downward_compare h) hmid (decide_eq_false hneg) i hi hmi
      · -- the place may be to the left of the key that was met, but its key is equal to it
        have hmatch : MatchAt comp keys k e r := by
          refine ⟨by have := hr.le; omega, by have := hr.le; omega, ?_⟩
          rcases Nat.lt_or_eq_of_le hr.le with hlt | rfl
          · refine compare_eq_zero_of_le h hmid hzero hlt ?_
            exact of_decide_eq_false (hr.fails r (by omega) (Nat.le_refl r) hlt)
          · exact hzero
        rw [if_pos hmatch, hres]
        split
        · rw [Nat.or_assoc, Nat.or_self]
        · rfl

end Compared

/-! ## The result and its flag -/

theorem and_kMatchMask {r : ℕ} (hr : r < kExactMatch) : r &&& kMatchMask = r := by
  unfold kMatchMask kExactMatch at *
  rw [Nat.and_two_pow_sub_one_eq_mod, Nat.mod_eq_of_lt hr]

/-- The mask takes the flag off. -/
theorem or_and_kMatchMask {r : ℕ} (hr : r < kExactMatch) :
    (r ||| kExactMatch) &&& kMatchMask = r := by
  unfold kMatchMask kExactMatch at *
  rw [Nat.and_two_pow_sub_one_eq_mod, Nat.or_mod_two_pow, Nat.mod_self, Nat.or_zero,
    Nat.mod_eq_of_lt hr]

/-- A flagged result has the bit of the flag. -/
theorem or_and_kExactMatch (r : ℕ) : (r ||| kExactMatch) &&& kExactMatch ≠ 0 := by
  intro h
  have hbit : ((r ||| kExactMatch) &&& kExactMatch).testBit 30 = true := by
    unfold kExactMatch
    rw [Nat.testBit_and, Nat.testBit_or, Nat.testBit_two_pow_self, Bool.or_true, Bool.true_and]
  rw [h, Nat.zero_testBit] at hbit
  exact Bool.false_ne_true hbit

/-- A place itself has not. -/
theorem and_kExactMatch {r : ℕ} (hr : r < kExactMatch) : r &&& kExactMatch = 0 := by
  unfold kExactMatch at *
  apply Nat.eq_of_testBit_eq
  intro i
  rw [Nat.testBit_and, Nat.testBit_two_pow, Nat.zero_testBit]
  by_cases hi : 30 = i
  · subst hi
    rw [Nat.testBit_lt_two_pow hr, Bool.false_and]
  · rw [decide_eq_false hi, Bool.and_false]

end BtreeSearch
