/-
# Weak orders and lists in order

A comparison that tells apart the elements of some order only up to equivalence is a
strict weak order.  This module has what searching needs of one:

* `Downward` and `IsCut` : a list along which a test holds up to some place and fails from there
  on, and a list cut at that place; there is one such cut, `takeWhile` and `dropWhile`;
* `Ordered` and `StrictlyOrdered` : lists in the order of their keys, what is put between two
  halves of one (`Ordered.insert`), and the cuts of one at a key (`below`, `upTo`).
-/
import Mathlib

/-! ## Cutting a list by a test -/

/-- Along the list the test can only go from holding to failing. -/
def Downward {α : Type*} (p : α → Bool) (l : List α) : Prop :=
  l.Pairwise fun x y => p y → p x

/-- The test holds on the first list and fails on the second. -/
structure IsCut {α : Type*} (p : α → Bool) (before after : List α) : Prop where
  holds : ∀ x ∈ before, p x = true
  fails : ∀ x ∈ after, p x = false

section Cut

variable {α : Type*} {p : α → Bool}

/-- What stands before an element that passes the test passes it as well. -/
theorem Downward.holds_before {l m : List α} (h : Downward p (l ++ m)) {y : α} (hy : y ∈ m)
    (hp : p y = true) : ∀ x ∈ l, p x = true := by
  intro x hx
  exact (List.pairwise_append.mp h).2.2 x hx y hy hp

/-- What stands after an element that fails the test fails it as well. -/
theorem Downward.fails_after {l m : List α} (h : Downward p (l ++ m)) {x : α} (hx : x ∈ l)
    (hp : p x = false) : ∀ y ∈ m, p y = false := by
  intro y hy
  cases hpy : p y with
  | false => rfl
  | true =>
      have := (List.pairwise_append.mp h).2.2 x hx y hy hpy
      rw [hp] at this
      exact this.symm

/-- A cut is `takeWhile` and `dropWhile`, so a list has one cut at most. -/
theorem IsCut.eq_while {l m : List α} (h : IsCut p l m) :
    l = (l ++ m).takeWhile p ∧ m = (l ++ m).dropWhile p := by
  have hm : m.takeWhile p = [] ∧ m.dropWhile p = m := by
    cases m with
    | nil => exact ⟨rfl, rfl⟩
    | cons y m =>
        have hy := h.fails y List.mem_cons_self
        rw [List.takeWhile_cons, List.dropWhile_cons, hy]
        exact ⟨rfl, rfl⟩
  rw [List.takeWhile_append_of_pos h.holds, List.dropWhile_append_of_pos h.holds, hm.1, hm.2,
    List.append_nil]
  exact ⟨rfl, rfl⟩

/-- A list along which the test only goes down is cut by `takeWhile` and `dropWhile`. -/
theorem Downward.isCut_while {l : List α} (h : Downward p l) :
    IsCut p (l.takeWhile p) (l.dropWhile p) := by
  refine ⟨fun x hx => List.mem_takeWhile_imp hx, fun y hy => ?_⟩
  rw [← List.takeWhile_append_dropWhile (p := p) (l := l)] at h
  cases hd : l.dropWhile p with
  | nil =>
      rw [hd] at hy
      exact absurd hy List.not_mem_nil
  | cons x m =>
      have hx : p x = false := by
        have := List.head_dropWhile_not (p := p) (by rw [hd]; exact List.cons_ne_nil x m)
        simpa only [hd, List.head_cons] using this
      rw [hd] at h hy
      have h' : Downward p (([x] : List α) ++ m) := (List.pairwise_append.mp h).2.1
      rcases List.mem_cons.mp hy with rfl | hy
      · exact hx
      · exact h'.fails_after List.mem_cons_self hx y hy

/-- A cut of what stands in the middle, with what stands on either side of it. -/
theorem IsCut.append {l m l' m' : List α} (h : IsCut p l m) (hl : ∀ x ∈ l', p x = true)
    (hm : ∀ x ∈ m', p x = false) : IsCut p (l' ++ l) (m ++ m') := by
  constructor
  · intro x hx
    rcases List.mem_append.mp hx with hx | hx
    · exact hl x hx
    · exact h.holds x hx
  · intro x hx
    rcases List.mem_append.mp hx with hx | hx
    · exact h.fails x hx
    · exact hm x hx

/-- Two cuts of one list are the same. -/
theorem IsCut.unique {l m l' m' : List α} (h : IsCut p l m) (h' : IsCut p l' m')
    (heq : l ++ m = l' ++ m') : l = l' ∧ m = m' := by
  constructor
  · rw [h.eq_while.1, heq]
    exact h'.eq_while.1.symm
  · rw [h.eq_while.2, heq]
    exact h'.eq_while.2.symm

/-- The place of the cut among the elements themselves. -/
theorem IsCut.getElem_iff {l m : List α} (h : IsCut p l m) {i : ℕ} (hi : i < (l ++ m).length) :
    p ((l ++ m)[i]) = true ↔ i < l.length := by
  rw [List.getElem_append]
  split
  · rename_i hil
    exact iff_of_true (h.holds _ (List.getElem_mem hil)) hil
  · rename_i hil
    rw [h.fails _ (List.getElem_mem _)]
    exact iff_of_false Bool.false_ne_true hil

end Cut

/-! ## Strict weak orders -/

/-- A strict weak order, as a comparison function. -/
structure StrictWeakOrder (κ : Type*) where
  /-- The comparison. -/
  lt : κ → κ → Bool
  irrefl : ∀ a, lt a a = false
  trans : ∀ {a b c}, lt a b = true → lt b c = true → lt a c = true
  /-- What lies between two elements in order is in order with one of them. -/
  cotrans : ∀ {a c} b, lt a c = true → lt a b = true ∨ lt b c = true

namespace StrictWeakOrder

variable {κ α : Type*} (O : StrictWeakOrder κ)

theorem asymm {a b : κ} (h : O.lt a b = true) : O.lt b a = false := by
  cases hba : O.lt b a with
  | false => rfl
  | true => exact absurd (O.trans h hba) (by rw [O.irrefl]; exact Bool.false_ne_true)

/-- Two keys that the order does not tell apart. -/
def Equivalent (a b : κ) : Prop := O.lt a b = false ∧ O.lt b a = false

instance (a b : κ) : Decidable (O.Equivalent a b) :=
  inferInstanceAs (Decidable (O.lt a b = false ∧ O.lt b a = false))

theorem equivalent_refl (a : κ) : O.Equivalent a a := ⟨O.irrefl a, O.irrefl a⟩

variable {O}

theorem Equivalent.symm {a b : κ} (h : O.Equivalent a b) : O.Equivalent b a := ⟨h.2, h.1⟩

/-- `not less than` composes. -/
theorem not_lt_trans {a b c : κ} (hab : O.lt a b = false) (hbc : O.lt b c = false) :
    O.lt a c = false := by
  cases hac : O.lt a c with
  | false => rfl
  | true =>
      rcases O.cotrans b hac with h | h
      · exact h.symm.trans hab
      · exact h.symm.trans hbc

theorem Equivalent.trans {a b c : κ} (hab : O.Equivalent a b) (hbc : O.Equivalent b c) :
    O.Equivalent a c :=
  ⟨not_lt_trans hab.1 hbc.1, not_lt_trans hbc.2 hab.2⟩

/-- What is less than one end of a gap that is not in order is less than the other. -/
theorem lt_of_lt_of_not_lt {a b c : κ} (hab : O.lt a b = true) (hcb : O.lt c b = false) :
    O.lt a c = true := by
  rcases O.cotrans c hab with h | h
  · exact h
  · exact absurd h (by rw [hcb]; exact Bool.false_ne_true)

theorem lt_of_not_lt_of_lt {a b c : κ} (hba : O.lt b a = false) (hbc : O.lt b c = true) :
    O.lt a c = true := by
  rcases O.cotrans a hbc with h | h
  · exact absurd h (by rw [hba]; exact Bool.false_ne_true)
  · exact h

variable (O)

/-! ## Lists in the order of their keys -/

/-- No later element has a smaller key. -/
def Ordered (key : α → κ) (l : List α) : Prop :=
  l.Pairwise fun x y => O.lt (key y) (key x) = false

/-- Every later element has a greater key. -/
def StrictlyOrdered (key : α → κ) (l : List α) : Prop :=
  l.Pairwise fun x y => O.lt (key x) (key y) = true

/-- The elements that come before the key `k`. -/
def below (key : α → κ) (k : κ) (x : α) : Bool := O.lt (key x) k

/-- The elements that do not come after the key `k`. -/
def upTo (key : α → κ) (k : κ) (x : α) : Bool := !O.lt k (key x)

variable {O} {key : α → κ}

theorem StrictlyOrdered.ordered {l : List α} (h : O.StrictlyOrdered key l) : O.Ordered key l :=
  List.Pairwise.imp (fun hxy => O.asymm hxy) h

theorem Ordered.downward_below {l : List α} (h : O.Ordered key l) (k : κ) :
    Downward (O.below key k) l :=
  List.Pairwise.imp (fun hxy hy => lt_of_not_lt_of_lt hxy hy) h

theorem Ordered.downward_upTo {l : List α} (h : O.Ordered key l) (k : κ) :
    Downward (O.upTo key k) l := by
  refine List.Pairwise.imp (fun {x y} hxy hy => ?_) h
  unfold upTo at hy ⊢
  rw [Bool.not_eq_true'] at hy ⊢
  exact not_lt_trans hy hxy

/-- An element put where it neither comes before what precedes nor after what follows. -/
theorem Ordered.insert {l m : List α} {v : α} (h : O.Ordered key (l ++ m))
    (hl : ∀ x ∈ l, O.lt (key v) (key x) = false) (hm : ∀ y ∈ m, O.lt (key y) (key v) = false) :
    O.Ordered key (l ++ v :: m) := by
  obtain ⟨hol, hom, hlm⟩ := List.pairwise_append.mp h
  refine List.pairwise_append.mpr ⟨hol, List.pairwise_cons.mpr ⟨hm, hom⟩, ?_⟩
  intro x hx y hy
  rcases List.mem_cons.mp hy with rfl | hy
  · exact hl x hx
  · exact hlm x hx y hy

/-- The strict version: between smaller keys and greater ones. -/
theorem StrictlyOrdered.insert {l m : List α} {v : α} (h : O.StrictlyOrdered key (l ++ m))
    (hl : ∀ x ∈ l, O.lt (key x) (key v) = true) (hm : ∀ y ∈ m, O.lt (key v) (key y) = true) :
    O.StrictlyOrdered key (l ++ v :: m) := by
  obtain ⟨hol, hom, hlm⟩ := List.pairwise_append.mp h
  refine List.pairwise_append.mpr ⟨hol, List.pairwise_cons.mpr ⟨hm, hom⟩, ?_⟩
  intro x hx y hy
  rcases List.mem_cons.mp hy with rfl | hy
  · exact hl x hx
  · exact hlm x hx y hy

/-- The order of a list is that of its keys. -/
theorem StrictlyOrdered.congr {l m : List α} (h : O.StrictlyOrdered key l)
    (hkeys : m.map key = l.map key) : O.StrictlyOrdered key m := by
  have hl : (l.map key).Pairwise fun x y => O.lt x y = true := List.pairwise_map.mpr h
  rw [← hkeys] at hl
  exact List.pairwise_map.mp hl

/-- The cut below a key, then one element not less than it at its head: at that element the key
is found, or nowhere. -/
theorem StrictlyOrdered.equivalent_head {l m : List α} {x : α} {k : κ}
    (h : O.StrictlyOrdered key (l ++ x :: m)) (hcut : IsCut (O.below key k) l (x :: m))
    {y : α} (hy : y ∈ l ++ x :: m) (he : O.Equivalent (key y) k) : y = x := by
  rcases List.mem_append.mp hy with hyl | hyx
  · have : O.lt (key y) k = true := hcut.holds y hyl
    rw [he.1] at this
    exact absurd this Bool.false_ne_true
  · rcases List.mem_cons.mp hyx with rfl | hym
    · rfl
    · have hxy : O.lt (key x) (key y) = true :=
        List.rel_of_pairwise_cons (List.pairwise_append.mp h).2.1 hym
      have hx : O.lt (key x) k = false := hcut.fails x List.mem_cons_self
      have hxk : O.lt (key x) k = true := lt_of_lt_of_not_lt hxy he.symm.1
      rw [hx] at hxk
      exact absurd hxk Bool.false_ne_true

/-- The cut up to the key then comes right after that element. -/
theorem StrictlyOrdered.isCut_upTo {l m : List α} {x : α} {k : κ}
    (h : O.StrictlyOrdered key (l ++ x :: m)) (hcut : IsCut (O.below key k) l (x :: m))
    (he : O.Equivalent (key x) k) : IsCut (O.upTo key k) (l ++ [x]) m := by
  obtain ⟨-, hxm, -⟩ := List.pairwise_append.mp h
  unfold upTo
  constructor
  · intro y hy
    rw [Bool.not_eq_true']
    rcases List.mem_append.mp hy with hy | hy
    · exact O.asymm (hcut.holds y hy)
    · rw [List.mem_singleton.mp hy]
      exact he.2
  · intro y hy
    rw [Bool.not_eq_false']
    exact lt_of_not_lt_of_lt he.1 (List.rel_of_pairwise_cons hxm hy)

/-! ## Lists between two keys -/

/-- The list is in order, and no key in it is before the one bound or after the other. -/
structure Within (O : StrictWeakOrder κ) (key : α → κ) (lo hi : Option κ) (l : List α) : Prop where
  ordered : O.Ordered key l
  low : ∀ k ∈ lo, ∀ x ∈ l, O.lt (key x) k = false
  high : ∀ k ∈ hi, ∀ x ∈ l, O.lt k (key x) = false

theorem Within.sublist {lo hi : Option κ} {l m : List α} (h : O.Within key lo hi m)
    (hl : l.Sublist m) : O.Within key lo hi l :=
  ⟨List.Pairwise.sublist hl h.ordered, fun k hk x hx => h.low k hk x (hl.subset hx),
    fun k hk x hx => h.high k hk x (hl.subset hx)⟩

/-- Without bounds there is only the order. -/
theorem within_none {l : List α} : O.Within key none none l ↔ O.Ordered key l := by
  constructor
  · intro h
    exact h.ordered
  · intro h
    exact ⟨h, fun k hk => absurd hk (Option.not_mem_none k),
      fun k hk => absurd hk (Option.not_mem_none k)⟩

/-- Of what is before a key and after it, the key is the one bound each. -/
theorem within_append_cons {lo hi : Option κ} {l m : List α} {v : α} :
    O.Within key lo hi (l ++ v :: m) ↔
      O.Within key lo (some (key v)) l ∧ O.Within key (some (key v)) hi m ∧
        (∀ k ∈ lo, O.lt (key v) k = false) ∧ ∀ k ∈ hi, O.lt k (key v) = false := by
  constructor
  · rintro ⟨hord, hlow, hhigh⟩
    obtain ⟨hl, hvm, hcross⟩ := List.pairwise_append.mp hord
    have hv : v ∈ l ++ v :: m := List.mem_append_right _ List.mem_cons_self
    refine ⟨⟨hl, fun k hk x hx => hlow k hk x (List.mem_append_left _ hx), ?_⟩,
      ⟨(List.pairwise_cons.mp hvm).2, ?_, ?_⟩, fun k hk => hlow k hk v hv,
      fun k hk => hhigh k hk v hv⟩
    · rintro k hk x hx
      obtain rfl := Option.some.inj hk
      exact hcross x hx v List.mem_cons_self
    · rintro k hk x hx
      obtain rfl := Option.some.inj hk
      exact List.rel_of_pairwise_cons hvm hx
    · exact fun k hk x hx => hhigh k hk x (List.mem_append_right _ (List.mem_cons_of_mem v hx))
  · rintro ⟨hl, hm, hlow, hhigh⟩
    have hlv := hl.high _ rfl
    have hvm := hm.low _ rfl
    -- each half has the key for its inner bound, and so keeps the outer bound of the other
    refine ⟨?_, fun k hk x hx => ?_, fun k hk x hx => ?_⟩
    · refine List.pairwise_append.mpr ⟨hl.ordered, List.pairwise_cons.mpr ⟨hvm, hm.ordered⟩, ?_⟩
      intro x hx y hy
      rcases List.mem_cons.mp hy with rfl | hy
      · exact hlv x hx
      · exact not_lt_trans (hvm y hy) (hlv x hx)
    · rcases List.mem_append.mp hx with hx | hx
      · exact hl.low k hk x hx
      · rcases List.mem_cons.mp hx with rfl | hx
        · exact hlow k hk
        · exact not_lt_trans (hvm x hx) (hlow k hk)
    · rcases List.mem_append.mp hx with hx | hx
      · exact not_lt_trans (hhigh k hk) (hlv x hx)
      · rcases List.mem_cons.mp hx with rfl | hx
        · exact hhigh k hk
        · exact hm.high k hk x hx

/-! ## Linear orders -/

/-- The comparison of a linear order. -/
def less (Key : Type*) [LinearOrder Key] : StrictWeakOrder Key where
  lt a b := decide (a < b)
  irrefl a := decide_eq_false (lt_irrefl a)
  trans hab hbc := decide_eq_true ((of_decide_eq_true hab).trans (of_decide_eq_true hbc))
  cotrans b hac := by
    simp only [decide_eq_true_eq] at hac ⊢
    exact (lt_or_ge _ b).imp_right fun h => h.trans_lt hac

theorem equivalent_less {Key : Type*} [LinearOrder Key] {a b : Key} :
    (less Key).Equivalent a b ↔ a = b := by
  unfold StrictWeakOrder.Equivalent less
  simp only [decide_eq_false_iff_not, not_lt]
  exact ⟨fun h => le_antisymm h.2 h.1, fun h => ⟨h.ge, h.le⟩⟩

end StrictWeakOrder
