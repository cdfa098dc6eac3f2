/-
# Headers of any content (`atlasdb/net/message.h`)

The header of a message may hold whatever the network delivers.  `decodeHeader_eq` says what
`decode_header` makes of it: a number that `atoi` reads and that fits is accepted, and
everything else is refused, a negative number because it turns into a huge size.  The main
results are `always_sound`, that no sequence of calls gets a body length past the storage of
the body, and `decodeHeader_numeral`, which headers are accepted and with what length.
-/
import Atlasdb.Message
import Atlasdb.StepRun

open ArrayWindow Decimal

namespace Message

/-! ## Decoding -/

/-- The string that `decode_header` reads: the bytes of the header up to a NUL. -/
def headerString (m : Message) : List UInt8 := strncat m.data.toList headerLength

/-- The string has no more characters than the header. -/
theorem length_headerString_le (m : Message) : m.headerString.length ≤ headerLength := by
  unfold headerString strncat
  exact (List.takeWhile_sublist _).length_le.trans (List.length_take_le _ _)

/-- The number in a header is far from the bounds of a size. -/
theorem natAbs_atoi_headerString (m : Message) :
    (atoi m.headerString).natAbs + maxBodyLength < SizeT.modulus := by
  have hpow : 10 ^ m.headerString.length ≤ 10 ^ headerLength :=
    Nat.pow_le_pow_right (by decide) m.length_headerString_le
  have hlt := natAbs_atoi_lt m.headerString
  have hbound : 10 ^ headerLength + maxBodyLength < SizeT.modulus := by decide
  omega

/-- `decode_header` accepts the numbers from 0 to the largest body length. -/
theorem decodeHeader_eq (m : Message) :
    m.decodeHeader =
      if 0 ≤ atoi m.headerString ∧ atoi m.headerString ≤ maxBodyLength then
        (true, { m with bodyLength := (atoi m.headerString).toNat })
      else (false, { m with bodyLength := 0 }) := by
  have hfits := m.natAbs_atoi_headerString
  have hiff := SizeT.ofInt_le_iff hfits
  unfold decodeHeader
  rw [← headerString]
  by_cases h : 0 ≤ atoi m.headerString ∧ atoi m.headerString ≤ maxBodyLength
  · -- a number that is not negative is its own size
    obtain ⟨n, hn⟩ := Int.eq_ofNat_of_zero_le h.1
    have hsize : SizeT.ofInt (atoi m.headerString) = (atoi m.headerString).toNat := by
      rw [hn, SizeT.ofInt_natCast (by omega), Int.toNat_natCast]
    rw [if_pos h, if_neg (Nat.not_lt.mpr (hiff.mpr h)), hsize]
  · -- a negative one wraps to a size above all body lengths
    rw [if_neg h, if_pos (Nat.lt_of_not_le fun hle => h (hiff.mp hle))]

/-! ## Any sequence of calls -/

/-- A call, or a store from `data()` or `body()` on. -/
inductive Call where
  | setBodyLength (length : ℕ)
  | writeData (offset : ℕ) (bytes : List UInt8)
  | writeBody (offset : ℕ) (bytes : List UInt8)
  | decodeHeader
  | encodeHeader
  deriving DecidableEq, Repr

/-- One call; `none` is a store outside an array. -/
def step (m : Message) : Call → Option Message
  | .setBodyLength length => some (m.setBodyLength length)
  | .writeData offset bytes => m.writeData offset bytes
  | .writeBody offset bytes => m.writeBody offset bytes
  | .decodeHeader => some m.decodeHeader.2
  | .encodeHeader => m.encodeHeader

/-- The length of a message stays within its storage: the body length is legal, and the length
does not exceed the array.  What `encode_header` prints fills the header and so fits the local
array; it is put in front of the array, and nothing else changes.  A header is refused exactly
when the number in it is no legal body length, and then leaves the body length 0. -/
structure Sound (m : Message) : Prop where
  bodyLength_le : m.bodyLength ≤ maxBodyLength
  length_le : m.length ≤ m.data.toList.length
  length_printed : m.printedHeader.length = headerLength
  encodes : ∃ m', m.encodeHeader = some m' ∧ m'.bodyLength = m.bodyLength ∧
    m'.data.toList = m.printedHeader ++ m.data.toList.drop headerLength
  refuses : m.decodeHeader.1 = false ↔
    ¬ (0 ≤ atoi m.headerString ∧ atoi m.headerString ≤ maxBodyLength)
  refused : m.decodeHeader.1 = false → m.decodeHeader.2 = { m with bodyLength := 0 }
  accepted : m.decodeHeader.1 = true →
    m.decodeHeader.2 = { m with bodyLength := (atoi m.headerString).toNat }

/-- A legal body length is all that is needed. -/
theorem sound_of_bodyLength_le {m : Message} (h : m.bodyLength ≤ maxBodyLength) : m.Sound where
  bodyLength_le := h
  length_le := by
    rw [length_data]
    exact Nat.add_le_add_left h headerLength
  length_printed := by
    rw [printedHeader_eq h]
    exact length_headerText h
  encodes := by
    rw [printedHeader_eq h]
    exact encodeHeader_spec h
  refuses := by
    rw [decodeHeader_eq]
    split_ifs with hin
    · exact iff_of_false (by decide) (not_not.mpr hin)
    · exact iff_of_true rfl hin
  refused := by
    rw [decodeHeader_eq]
    split_ifs with hin
    · exact fun htrue => absurd htrue (by decide)
    · exact fun _ => rfl
  accepted := by
    rw [decodeHeader_eq]
    split_ifs with hin
    · exact fun _ => rfl
    · exact fun hfalse => absurd hfalse (by decide)

/-- Every call keeps the body length legal. -/
theorem bodyLength_step_le {m m' : Message} (h : m.bodyLength ≤ maxBodyLength) {c : Call}
    (hstep : m.step c = some m') : m'.bodyLength ≤ maxBodyLength := by
  cases c with
  | setBodyLength length =>
      obtain rfl := Option.some.inj hstep
      rw [bodyLength_setBodyLength]
      exact Nat.min_le_right _ _
  | writeData offset bytes =>
      obtain ⟨a, -, rfl⟩ := Option.map_eq_some_iff.mp hstep
      exact h
  | writeBody offset bytes =>
      obtain ⟨a, -, rfl⟩ := Option.map_eq_some_iff.mp hstep
      exact h
  | decodeHeader =>
      obtain rfl := Option.some.inj hstep
      rw [decodeHeader_eq]
      split_ifs with hin
      · exact Int.toNat_le.mpr hin.2
      · exact Nat.zero_le _
  | encodeHeader =>
      obtain ⟨m'', hm'', hbody, -⟩ := encodeHeader_spec h
      obtain rfl : m'' = m' := Option.some.inj (hm''.symm.trans hstep)
      rw [hbody]
      exact h

/-- **The length never exceeds the storage.**  For every new message, whatever its array
holds, and every sequence of calls, in every state on the way. -/
theorem always_sound (storage : Vector UInt8 (headerLength + maxBodyLength))
    (calls : List Call) : StepRun.Always step Sound (init storage) calls := by
  refine StepRun.always_of_invariant (fun m h => sound_of_bodyLength_le h) ?_ (Nat.zero_le _)
  intro m c m' h hstep
  exact bodyLength_step_le h hstep

/-! ## Accepted headers -/

/-- The header is zero or more blanks and one or more digits, with the value `n`. -/
def WellFormedHeader (m : Message) (n : ℕ) : Prop :=
  ∃ blanks digits, m.data.toList.take headerLength = List.replicate blanks 32 ++ digits ∧
    digits ≠ [] ∧ (∀ b ∈ digits, isDigit b = true) ∧ scanDigits 0 digits = n

/-- A well-formed header is the string of a numeral with its value. -/
theorem WellFormedHeader.atoi_eq {m : Message} {n : ℕ} (h : m.WellFormedHeader n) :
    atoi m.headerString = n := by
  obtain ⟨blanks, digits, htake, hne, hdigits, rfl⟩ := h
  -- neither a blank nor a digit is a NUL, so that the whole header is read
  have hstring : m.headerString = List.replicate blanks 32 ++ digits := by
    unfold headerString strncat
    rw [htake, List.takeWhile_eq_self_iff]
    intro b hb
    rcases List.mem_append.mp hb with hb | hb
    · rw [List.eq_of_mem_replicate hb]
      decide
    · rw [bne_iff_ne]
      rintro rfl
      exact absurd (hdigits 0 hb) (by decide)
  let numeral : Numeral m.headerString :=
    { spaces := List.replicate blanks 32
      sign := []
      digits := digits
      rest := []
      eq_append := by rw [hstring, List.append_nil, List.nil_append]
      isSpace_spaces := fun b hb => List.eq_of_mem_replicate hb ▸ rfl
      sign_eq := Or.inl rfl
      isDigit_digits := hdigits
      not_isDigit_rest := fun b hb => absurd hb (Option.not_mem_none b)
      none_missed := fun _ hnil => absurd hnil hne }
  exact numeral.atoi_eq

/-- A header is accepted exactly when it is well-formed with a legal value, which becomes the
body length. -/
structure RejectsMalformed (m : Message) : Prop where
  accepts : ∀ n ≤ maxBodyLength, m.WellFormedHeader n →
    m.decodeHeader = (true, { m with bodyLength := n })
  rejects : (¬ ∃ n ≤ maxBodyLength, m.WellFormedHeader n) →
    m.decodeHeader = (false, { m with bodyLength := 0 })

/-- A message that is filled with the letter `a`. -/
def letters : Message := init (Vector.replicate (headerLength + maxBodyLength) 97)

/-- Four letters are accepted as the number 0. -/
theorem not_rejectsMalformed_letters : ¬ ∀ m : Message, m.RejectsMalformed := by
  intro hall
  have htake : letters.data.toList.take headerLength = [97, 97, 97, 97] := by
    show (Vector.replicate (headerLength + maxBodyLength) 97).toList.take headerLength = _
    rw [Vector.toList_replicate, List.take_replicate]
    rfl
  have hstring : letters.headerString = [97, 97, 97, 97] := by
    unfold headerString strncat
    rw [htake]
    rfl
  have hrefused : letters.decodeHeader = (false, { letters with bodyLength := 0 }) := by
    refine (hall letters).rejects ?_
    rintro ⟨n, -, blanks, digits, heq, -, hdigits, -⟩
    have hmem : (97 : UInt8) ∈ List.replicate blanks 32 ++ digits := by
      rw [← heq, htake]
      exact List.mem_cons_self
    rcases List.mem_append.mp hmem with hmem | hmem
    · exact absurd (List.eq_of_mem_replicate hmem) (by decide)
    · exact absurd (hdigits 97 hmem) (by decide)
  rw [decodeHeader_eq, hstring, if_pos (by decide)] at hrefused
  exact absurd (congrArg Prod.fst hrefused) (by decide)

/-- **Which headers are accepted.**  Every header string splits into white space, a sign, a
run of digits and a rest that `atoi` does not look at.  It is accepted exactly when the number
that the sign and the digits stand for, 0 if there are no digits, is a legal body length, and
then sets that length; otherwise the body length becomes 0.  In particular blanks followed
by digits are accepted exactly when their value is legal. -/
theorem decodeHeader_numeral (m : Message) :
    Nonempty (Numeral m.headerString) ∧
      (∀ numeral : Numeral m.headerString, m.decodeHeader =
        if 0 ≤ numeral.value ∧ numeral.value ≤ maxBodyLength then
          (true, { m with bodyLength := numeral.value.toNat })
        else (false, { m with bodyLength := 0 })) ∧
      ∀ n, m.WellFormedHeader n → m.decodeHeader =
        if n ≤ maxBodyLength then (true, { m with bodyLength := n })
        else (false, { m with bodyLength := 0 }) := by
  refine ⟨exists_numeral m.headerString, fun numeral => ?_, fun n h => ?_⟩
  · rw [decodeHeader_eq, numeral.atoi_eq]
  · have hiff : (0 ≤ (n : ℤ) ∧ (n : ℤ) ≤ maxBodyLength) ↔ n ≤ maxBodyLength := by omega
    rw [decodeHeader_eq, h.atoi_eq, Int.toNat_natCast]
    simp only [hiff]

end Message
