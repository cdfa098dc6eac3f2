/-
# Printing and scanning decimal numbers

`formatInt w i` is what `printf` writes for an integer with the minimal field width
`w`, and `atoi` is the scanner of the C library: it skips white space, takes an
optional sign and then digits up to the first other character.  The round trip is
`atoi_formatInt`; `length_formatInt` bounds the text.  For a string of any content,
`Numeral` is how the scanner splits it, and `Numeral.atoi_eq` what it reads.
-/
import Mathlib

namespace Decimal

/-! ## Printing -/

/-- The character of a decimal digit. -/
def digitByte (d : ℕ) : UInt8 := UInt8.ofNat (48 + d)

/-- The decimal digits of a natural number, most significant first. -/
def decimal (n : ℕ) : List UInt8 :=
  (Nat.toDigits 10 n).map fun c => UInt8.ofNat c.toNat

/-- The decimal text of an integer. -/
def intText (i : ℤ) : List UInt8 :=
  if i < 0 then 45 :: decimal i.natAbs else decimal i.natAbs

/-- The text of an integer, filled up with blanks on the left to the field width. -/
def formatInt (width : ℕ) (i : ℤ) : List UInt8 :=
  List.replicate (width - (intText i).length) 32 ++ intText i

/-! ## Scanning -/

/-- White space of the C locale: blank, `\t`, `\n`, `\v`, `\f` and `\r`. -/
def isSpace (b : UInt8) : Bool := b == 32 || (9 ≤ b && b ≤ 13)

/-- A decimal digit. -/
def isDigit (b : UInt8) : Bool := 48 ≤ b && b ≤ 57

/-- The digit loop, with the value read so far. -/
def scanDigits (v : ℕ) : List UInt8 → ℕ
  | [] => v
  | b :: bs => if isDigit b then scanDigits (10 * v + (b.toNat - 48)) bs else v

/-- An optional sign and the digits after it. -/
def scanSigned : List UInt8 → ℤ
  | [] => 0
  | b :: bs =>
      if b = 45 then -(scanDigits 0 bs : ℤ)
      else if b = 43 then scanDigits 0 bs
      else scanDigits 0 (b :: bs)

/-- `atoi` on a string without its terminator. -/
def atoi (s : List UInt8) : ℤ := scanSigned (s.dropWhile isSpace)

/-! ## The digits of a number -/

/-- Printing one digit gives its character. -/
theorem ofNat_digitChar {d : ℕ} (h : d < 10) :
    UInt8.ofNat (Nat.digitChar d).toNat = digitByte d := by
  interval_cases d <;> rfl

/-- The recursion of the printer: the last digit stands behind the text of the quotient. -/
theorem decimal_eq (n : ℕ) :
    decimal n = if n < 10 then [digitByte n] else decimal (n / 10) ++ [digitByte (n % 10)] := by
  rw [decimal, Nat.toDigits_eq_if (by decide)]
  split_ifs with h
  · rw [List.map_singleton, ofNat_digitChar h]
  · rw [List.map_append, List.map_singleton, ofNat_digitChar (Nat.mod_lt n (by decide)), decimal]

/-- The value of a digit character. -/
theorem toNat_digitByte {d : ℕ} (h : d < 10) : (digitByte d).toNat = 48 + d := by
  unfold digitByte
  rw [UInt8.toNat_ofNat']
  omega

/-- A digit character is a digit. -/
theorem isDigit_digitByte {d : ℕ} (h : d < 10) : isDigit (digitByte d) = true := by
  interval_cases d <;> rfl

/-- Only digits are printed. -/
theorem isDigit_of_mem_decimal {n : ℕ} : ∀ b ∈ decimal n, isDigit b = true := by
  induction n using Nat.strongRecOn with
  | _ n ih =>
      rw [decimal_eq]
      split_ifs with h
      · simpa using isDigit_digitByte h
      · intro b hb
        rcases List.mem_append.mp hb with hb | hb
        · exact ih (n / 10) (by omega) b hb
        · rw [List.mem_singleton.mp hb]
          exact isDigit_digitByte (Nat.mod_lt n (by decide))

/-- At least one digit is printed. -/
theorem decimal_ne_nil (n : ℕ) : decimal n ≠ [] := by
  rw [decimal_eq]
  split_ifs <;> simp

/-- A number below `10 ^ k` has at most `k` digits. -/
theorem length_decimal_le {n k : ℕ} (hk : 0 < k) (h : n < 10 ^ k) : (decimal n).length ≤ k := by
  induction k generalizing n with
  | zero => omega
  | succ k ih =>
      rw [decimal_eq]
      split_ifs with h10
      · simp
      · have hk0 : 0 < k := by
          rcases Nat.eq_zero_or_pos k with rfl | hpos
          · omega
          · exact hpos
        have hdiv : n / 10 < 10 ^ k := by
          rw [pow_succ] at h
          omega
        have hlen := ih hk0 hdiv
        rw [List.length_append, List.length_singleton]
        omega

/-- The digit loop over a run of digits goes on behind it. -/
theorem scanDigits_append {xs : List UInt8} (h : ∀ b ∈ xs, isDigit b = true) (v : ℕ)
    (ys : List UInt8) : scanDigits v (xs ++ ys) = scanDigits (scanDigits v xs) ys := by
  induction xs generalizing v with
  | nil => rfl
  | cons b xs ih =>
      have hb : isDigit b = true := h b List.mem_cons_self
      rw [List.cons_append, scanDigits, if_pos hb, scanDigits, if_pos hb]
      exact ih (fun c hc => h c (List.mem_cons_of_mem b hc)) _

/-- The digit loop reads back a printed number. -/
theorem scanDigits_decimal (n : ℕ) : scanDigits 0 (decimal n) = n := by
  induction n using Nat.strongRecOn with
  | _ n ih =>
      rw [decimal_eq]
      split_ifs with h
      · rw [scanDigits, if_pos (isDigit_digitByte h), toNat_digitByte h, scanDigits]
        omega
      · have hmod : n % 10 < 10 := Nat.mod_lt n (by decide)
        rw [scanDigits_append isDigit_of_mem_decimal, ih (n / 10) (by omega), scanDigits,
          if_pos (isDigit_digitByte hmod), toNat_digitByte hmod, scanDigits]
        omega

/-! ## The round trip -/

/-- A digit is neither white space nor a sign. -/
theorem not_isSpace_of_isDigit {b : UInt8} (h : isDigit b = true) :
    isSpace b = false ∧ b ≠ 45 ∧ b ≠ 43 := by
  simp only [isDigit, Bool.and_eq_true, decide_eq_true_eq, UInt8.le_iff_toNat_le] at h
  refine ⟨?_, ?_, ?_⟩
  · rw [Bool.eq_false_iff]
    intro hs
    simp only [isSpace, Bool.or_eq_true, beq_iff_eq, Bool.and_eq_true, decide_eq_true_eq,
      UInt8.le_iff_toNat_le] at hs
    rcases hs with rfl | hs
    · exact absurd h.1 (by decide)
    · have h13 : b.toNat ≤ 13 := hs.2
      have h48 : 48 ≤ b.toNat := h.1
      omega
  · rintro rfl
    exact absurd h.1 (by decide)
  · rintro rfl
    exact absurd h.1 (by decide)

/-- `atoi` skips leading blanks. -/
theorem atoi_replicate_append (k : ℕ) (s : List UInt8) :
    atoi (List.replicate k 32 ++ s) = atoi s := by
  induction k with
  | zero => rfl
  | succ k ih =>
      rw [List.replicate_succ, List.cons_append, atoi, List.dropWhile_cons_of_pos (by decide)]
      exact ih

/-- `atoi` reads back the digits of a number. -/
theorem atoi_decimal (n : ℕ) : atoi (decimal n) = n := by
  have hall := isDigit_of_mem_decimal (n := n)
  have hval := scanDigits_decimal n
  cases hd : decimal n with
  | nil => exact absurd hd (decimal_ne_nil n)
  | cons b bs =>
      rw [hd] at hall hval
      obtain ⟨hspace, hminus, hplus⟩ := not_isSpace_of_isDigit (hall b List.mem_cons_self)
      rw [atoi, List.dropWhile_cons_of_neg (by rw [hspace]; decide), scanSigned,
        if_neg hminus, if_neg hplus, hval]

/-- The text of a natural number is its digits. -/
theorem intText_natCast (n : ℕ) : intText n = decimal n := by
  unfold intText
  rw [if_neg (by omega), Int.natAbs_natCast]

/-- **Round trip.**  Scanning the printed text of a natural number gives the number
back, whatever the field width. -/
theorem atoi_formatInt (width n : ℕ) : atoi (formatInt width n) = n := by
  unfold formatInt
  rw [intText_natCast, atoi_replicate_append, atoi_decimal]

/-- A number with no more digits than the field is wide fills exactly the field. -/
theorem length_formatInt {width n : ℕ} (hw : 0 < width) (h : n < 10 ^ width) :
    (formatInt width n).length = width := by
  have hlen := length_decimal_le hw h
  unfold formatInt
  rw [intText_natCast, List.length_append, List.length_replicate]
  omega

/-- The printed text of a natural number has no NUL in it. -/
theorem ne_zero_of_mem_formatInt {width n : ℕ} : ∀ b ∈ formatInt width n, b ≠ 0 := by
  intro b hb
  unfold formatInt at hb
  rw [intText_natCast, List.mem_append] at hb
  rintro rfl
  rcases hb with hb | hb
  · exact absurd (List.eq_of_mem_replicate hb) (by decide)
  · exact absurd (isDigit_of_mem_decimal 0 hb) (by decide)

/-! ## What `atoi` reads -/

/-- The digit loop stays below the power of ten that its characters allow. -/
theorem scanDigits_lt (v : ℕ) (s : List UInt8) : scanDigits v s < (v + 1) * 10 ^ s.length := by
  induction s generalizing v with
  | nil =>
      rw [scanDigits, List.length_nil]
      omega
  | cons b s ih =>
      rw [scanDigits, List.length_cons]
      split_ifs with hb
      · simp only [isDigit, Bool.and_eq_true, decide_eq_true_eq, UInt8.le_iff_toNat_le] at hb
        have hdigit : b.toNat ≤ 57 := hb.2
        calc scanDigits (10 * v + (b.toNat - 48)) s
            < (10 * v + (b.toNat - 48) + 1) * 10 ^ s.length := ih _
          _ ≤ ((v + 1) * 10) * 10 ^ s.length := Nat.mul_le_mul_right _ (by omega)
          _ = (v + 1) * 10 ^ (s.length + 1) := by ring
      · -- the loop ends here
        have hpow : 0 < 10 ^ (s.length + 1) := by positivity
        calc v < v + 1 := Nat.lt_succ_self v
          _ ≤ (v + 1) * 10 ^ (s.length + 1) := Nat.le_mul_of_pos_right _ hpow

/-- A string of `k` characters is read as a number of at most `k` digits. -/
theorem natAbs_atoi_lt (s : List UInt8) : (atoi s).natAbs < 10 ^ s.length := by
  have hlen : (s.dropWhile isSpace).length ≤ s.length := (List.dropWhile_sublist _).length_le
  refine lt_of_lt_of_le ?_ (Nat.pow_le_pow_right (by decide) hlen)
  unfold atoi
  cases s.dropWhile isSpace with
  | nil => simp [scanSigned]
  | cons b t =>
      have htail : scanDigits 0 t < 10 ^ (t.length + 1) := by
        have hlt := scanDigits_lt 0 t
        rw [Nat.zero_add, Nat.one_mul] at hlt
        exact hlt.trans_le (Nat.pow_le_pow_right (by decide) (Nat.le_succ _))
      have hall := scanDigits_lt 0 (b :: t)
      rw [Nat.zero_add, Nat.one_mul, List.length_cons] at hall
      rw [scanSigned, List.length_cons]
      split_ifs
      · rw [Int.natAbs_neg, Int.natAbs_natCast]
        exact htail
      · rw [Int.natAbs_natCast]
        exact htail
      · rw [Int.natAbs_natCast]
        exact hall

/-- A string split into white space, a sign, a run of digits, and a rest that continues none
of them. -/
structure Numeral (s : List UInt8) where
  spaces : List UInt8
  sign : List UInt8
  digits : List UInt8
  rest : List UInt8
  eq_append : s = spaces ++ (sign ++ (digits ++ rest))
  isSpace_spaces : ∀ b ∈ spaces, isSpace b = true
  sign_eq : sign = [] ∨ sign = [43] ∨ sign = [45]
  isDigit_digits : ∀ b ∈ digits, isDigit b = true
  not_isDigit_rest : ∀ b ∈ rest.head?, isDigit b = false
  none_missed : sign = [] → digits = [] → ∀ b ∈ rest.head?, isSpace b = false ∧ b ≠ 45 ∧ b ≠ 43

/-- The integer that the sign and the digits stand for, 0 if there are no digits. -/
def Numeral.value {s : List UInt8} (n : Numeral s) : ℤ :=
  if n.sign = [45] then -(scanDigits 0 n.digits : ℤ) else scanDigits 0 n.digits

/-- Behind white space, `atoi` starts to scan at the first other character. -/
theorem atoi_append {spaces s : List UInt8} (hspaces : ∀ b ∈ spaces, isSpace b = true)
    (hs : ∀ b ∈ s.head?, isSpace b = false) : atoi (spaces ++ s) = scanSigned s := by
  unfold atoi
  rw [List.dropWhile_append_of_pos hspaces]
  cases s with
  | nil => rfl
  | cons b s =>
      have hb : isSpace b = false := hs b rfl
      rw [List.dropWhile_cons_of_neg (by rw [hb]; decide)]

/-- The digit loop ends where the digits end. -/
theorem scanDigits_append_rest {digits rest : List UInt8}
    (hdigits : ∀ b ∈ digits, isDigit b = true) (hrest : ∀ b ∈ rest.head?, isDigit b = false) :
    scanDigits 0 (digits ++ rest) = scanDigits 0 digits := by
  rw [scanDigits_append hdigits]
  cases rest with
  | nil => rfl
  | cons b rest =>
      have hb : isDigit b = false := hrest b rfl
      rw [scanDigits, if_neg (by rw [hb]; decide)]

/-- A numeral without a sign begins with a digit, or with something that is not read. -/
theorem Numeral.head_of_sign_nil {s : List UInt8} (n : Numeral s) (h : n.sign = []) :
    ∀ b ∈ (n.digits ++ n.rest).head?, isSpace b = false ∧ b ≠ 45 ∧ b ≠ 43 := by
  intro b hb
  cases hdigits : n.digits with
  | nil =>
      rw [hdigits, List.nil_append] at hb
      exact n.none_missed h hdigits b hb
  | cons d digits =>
      rw [hdigits, List.cons_append] at hb
      obtain rfl : d = b := Option.some.inj hb
      exact not_isSpace_of_isDigit (n.isDigit_digits d (by simp [hdigits]))

/-- Behind the white space there is no more of it. -/
theorem Numeral.not_isSpace_head {s : List UInt8} (n : Numeral s) :
    ∀ b ∈ (n.sign ++ (n.digits ++ n.rest)).head?, isSpace b = false := by
  rcases n.sign_eq with h | h | h
  · rw [h, List.nil_append]
    exact fun b hb => (n.head_of_sign_nil h b hb).1
  · simp [h, isSpace]
  · simp [h, isSpace]

/-- `atoi` reads the value of the numeral in its string. -/
theorem Numeral.atoi_eq {s : List UInt8} (n : Numeral s) : atoi s = n.value := by
  have hscan := scanDigits_append_rest n.isDigit_digits n.not_isDigit_rest
  rw [congrArg atoi n.eq_append, atoi_append n.isSpace_spaces n.not_isSpace_head]
  unfold value
  rcases n.sign_eq with h | h | h
  · -- without a sign the scan starts at the first digit, or at what stands in its place
    have hhead := n.head_of_sign_nil h
    rw [h, if_neg (by decide), List.nil_append, ← hscan]
    cases ht : n.digits ++ n.rest with
    | nil => rfl
    | cons b t =>
        rw [ht] at hhead
        obtain ⟨-, hminus, hplus⟩ := hhead b rfl
        rw [scanSigned, if_neg hminus, if_neg hplus]
  · rw [h, if_neg (by decide), List.singleton_append, scanSigned, if_neg (by decide), if_pos rfl,
      hscan]
  · rw [h, if_pos rfl, List.singleton_append, scanSigned, if_pos rfl, hscan]

/-- A string splits behind its longest front part with a property. -/
theorem exists_split (p : UInt8 → Bool) (s : List UInt8) :
    ∃ xs ys, s = xs ++ ys ∧ (∀ b ∈ xs, p b = true) ∧ ∀ b ∈ ys.head?, p b = false := by
  refine ⟨s.takeWhile p, s.dropWhile p, List.takeWhile_append_dropWhile.symm,
    fun b hb => List.mem_takeWhile_imp hb, fun b hb => ?_⟩
  have hnot := List.head?_dropWhile_not p s
  rw [Option.mem_def.mp hb] at hnot
  simpa using hnot

/-- Every string contains a numeral. -/
theorem exists_numeral (s : List UInt8) : Nonempty (Numeral s) := by
  obtain ⟨spaces, t, rfl, hspaces, hhead⟩ := exists_split isSpace s
  by_cases hsign : ∃ b u, t = b :: u ∧ (b = 43 ∨ b = 45)
  · obtain ⟨b, u, rfl, hb⟩ := hsign
    obtain ⟨digits, rest, rfl, hdigits, hrest⟩ := exists_split isDigit u
    have hsign : [b] = [] ∨ [b] = [43] ∨ [b] = [45] := by
      rcases hb with rfl | rfl
      · exact Or.inr (Or.inl rfl)
      · exact Or.inr (Or.inr rfl)
    refine ⟨⟨spaces, [b], digits, rest, rfl, hspaces, hsign, hdigits, hrest, ?_⟩⟩
    intro hnil
    exact absurd hnil (List.cons_ne_nil b [])
  · obtain ⟨digits, rest, rfl, hdigits, hrest⟩ := exists_split isDigit t
    refine ⟨⟨spaces, [], digits, rest, rfl, hspaces, Or.inl rfl, hdigits, hrest, ?_⟩⟩
    -- without digits the rest starts behind the white space
    rintro - rfl b hb
    rw [List.nil_append] at hhead hsign
    obtain ⟨u, hu⟩ := List.head?_eq_some_iff.mp hb
    refine ⟨hhead b hb, ?_, ?_⟩
    · rintro rfl
      exact hsign ⟨45, u, hu, Or.inr rfl⟩
    · rintro rfl
      exact hsign ⟨43, u, hu, Or.inl rfl⟩

end Decimal
