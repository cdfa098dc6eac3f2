/-
# Framed messages (`atlasdb/net/message.h`)

A message is a header of four characters, the decimal length of its body, followed
by the body.  `Message` is the class; `clientMessage` builds a message the way the
send loop of `libs/example/client.cpp` does, and `readStream` is a receiver that
decodes one header after the other.  The main result is `readStream_sent`: the
receiver finds every body that was sent, cut to the largest body, and nothing else.
-/
import Atlasdb.ArrayWindow
import Atlasdb.Decimal
import Atlasdb.SizeT

open ArrayWindow Decimal

namespace Message

/-- `message::header_length`. -/
def headerLength : ℕ := 4

/-- `message::max_body_length`. -/
def maxBodyLength : ℕ := 1024

end Message

/-- The data members `_data` and `_body_length`. -/
@[ext] structure Message where
  data : Vector UInt8 (Message.headerLength + Message.maxBodyLength)
  bodyLength : ℕ
  deriving DecidableEq

namespace Message

/-! ## The class -/

/-- The constructor.  It leaves the array as the storage held it. -/
def init (storage : Vector UInt8 (headerLength + maxBodyLength)) : Message where
  data := storage
  bodyLength := 0

/-- `length()`. -/
def length (m : Message) : ℕ := headerLength + m.bodyLength

/-- `body_length(length)`, the setter. -/
def setBodyLength (m : Message) (length : ℕ) : Message :=
  { m with bodyLength := if length > maxBodyLength then maxBodyLength else length }

/-- Store bytes from `data() + offset` on; `none` is a store outside the array. -/
def writeData (m : Message) (offset : ℕ) (bytes : List UInt8) : Option Message :=
  (copyTo m.data offset bytes).map fun a => { m with data := a }

/-- Store bytes from `body() + offset` on; `body()` is `_data + header_length`. -/
def writeBody (m : Message) (offset : ℕ) (bytes : List UInt8) : Option Message :=
  m.writeData (headerLength + offset) bytes

/-- What `strncat` appends from a character array: at most `n` characters, up to a NUL. -/
def strncat (src : List UInt8) (n : ℕ) : List UInt8 := (src.take n).takeWhile (· != 0)

/-- `decode_header()`: the answer and the message after the call. -/
def decodeHeader (m : Message) : Bool × Message :=
  let header := strncat m.data.toList headerLength
  let n := SizeT.ofInt (atoi header)
  if n > maxBodyLength then (false, { m with bodyLength := 0 })
  else (true, { m with bodyLength := n })

/-- What `encode_header` prints into its local array: the body length as an `int`, with `"%4d"`. -/
def printedHeader (m : Message) : List UInt8 := formatInt 4 (SizeT.toInt m.bodyLength)

/-- `encode_header()`.  The local array has room for `header_length` characters and the
terminator; `none` is a text that overflows it. -/
def encodeHeader (m : Message) : Option Message :=
  if m.printedHeader.length + 1 ≤ headerLength + 1 then
    m.writeData 0 (m.printedHeader.take headerLength)
  else none

/-! ## Writing into the array -/

/-- The array has exactly the bytes of a header and a largest body. -/
theorem length_data (m : Message) : m.data.toList.length = headerLength + maxBodyLength :=
  Vector.length_toList

/-- Bytes that fit into the array replace the ones at their place. -/
theorem writeData_spec (m : Message) (offset : ℕ) (bytes : List UInt8)
    (h : offset + bytes.length ≤ headerLength + maxBodyLength) :
    ∃ m', m.writeData offset bytes = some m' ∧ m'.bodyLength = m.bodyLength ∧
      m'.data.toList = m.data.toList.take offset ++ bytes
        ++ m.data.toList.drop (offset + bytes.length) := by
  obtain ⟨a, ha, hlist⟩ := copyTo_of_le m.data offset bytes h
  exact ⟨{ m with data := a }, by rw [writeData, ha, Option.map_some], rfl, hlist⟩

/-- Bytes at the front replace the first ones. -/
theorem writeData_zero_spec (m : Message) (bytes : List UInt8)
    (h : bytes.length ≤ headerLength + maxBodyLength) :
    ∃ m', m.writeData 0 bytes = some m' ∧ m'.bodyLength = m.bodyLength ∧
      m'.data.toList = bytes ++ m.data.toList.drop bytes.length := by
  obtain ⟨m', hm', hbody, hdata⟩ := m.writeData_spec 0 bytes (by omega)
  rw [List.take_zero, List.nil_append, Nat.zero_add] at hdata
  exact ⟨m', hm', hbody, hdata⟩

/-! ## The header -/

/-- The four characters of a legal body length. -/
def headerText (n : ℕ) : List UInt8 := formatInt 4 n

/-- The text of a legal length fills the header. -/
theorem length_headerText {n : ℕ} (h : n ≤ maxBodyLength) :
    (headerText n).length = headerLength := by
  have hmax : maxBodyLength < 10 ^ 4 := by decide
  exact length_formatInt (by decide) (by omega)

/-- The setter never sets more than the largest body length. -/
theorem bodyLength_setBodyLength (m : Message) (n : ℕ) :
    (m.setBodyLength n).bodyLength = min n maxBodyLength := by
  rw [setBodyLength]
  show (if n > maxBodyLength then maxBodyLength else n) = _
  split_ifs with h
  · exact (Nat.min_eq_right h.le).symm
  · exact (Nat.min_eq_left (not_lt.mp h)).symm

/-- A legal body length is printed as it is. -/
theorem printedHeader_eq {m : Message} (h : m.bodyLength ≤ maxBodyLength) :
    m.printedHeader = headerText m.bodyLength := by
  have hmax : maxBodyLength < 2 ^ 31 := by decide
  unfold printedHeader headerText
  rw [SizeT.toInt_of_lt (by omega)]

/-- With a legal body length `encode_header` puts its text in front and keeps the rest. -/
theorem encodeHeader_spec {m : Message} (h : m.bodyLength ≤ maxBodyLength) :
    ∃ m', m.encodeHeader = some m' ∧ m'.bodyLength = m.bodyLength ∧
      m'.data.toList = headerText m.bodyLength ++ m.data.toList.drop headerLength := by
  have hlen := length_headerText h
  have htake : (headerText m.bodyLength).take headerLength = headerText m.bodyLength :=
    List.take_of_length_le hlen.le
  obtain ⟨m', hm', hbody, hdata⟩ := m.writeData_zero_spec (headerText m.bodyLength) (by omega)
  refine ⟨m', ?_, hbody, by rw [hdata, hlen]⟩
  unfold encodeHeader
  rw [printedHeader_eq h, if_pos (by omega), htake, hm']

/-- `decode_header` accepts the text of a legal length and sets that length. -/
theorem decodeHeader_headerText {m : Message} {n : ℕ} (hn : n ≤ maxBodyLength)
    (h : m.data.toList.take headerLength = headerText n) :
    m.decodeHeader = (true, { m with bodyLength := n }) := by
  have hmod : maxBodyLength < SizeT.modulus := by decide
  have hcat : strncat m.data.toList headerLength = headerText n := by
    unfold strncat
    rw [h, List.takeWhile_eq_self_iff]
    intro b hb
    exact bne_iff_ne.mpr (ne_zero_of_mem_formatInt b hb)
  have hval : SizeT.ofInt (atoi (headerText n)) = n := by
    unfold headerText
    rw [atoi_formatInt, SizeT.ofInt_natCast (by omega)]
  rw [decodeHeader, hcat, hval, if_neg (by omega)]

/-! ## Sending -/

/-- The message that the client builds for one line, in storage of any content. -/
def clientMessage (storage : Vector UInt8 (headerLength + maxBodyLength)) (line : List UInt8) :
    Option Message :=
  let m := (init storage).setBodyLength line.length
  (m.writeBody 0 (line.take m.bodyLength)).bind encodeHeader

/-- The bytes `data()[0 .. length())`. -/
def wire (m : Message) : List UInt8 := m.data.toList.take m.length

/-- The stream of all messages, one for each line. -/
def sentStream :
    List (Vector UInt8 (headerLength + maxBodyLength) × List UInt8) → Option (List UInt8)
  | [] => some []
  | (storage, line) :: rest => (clientMessage storage line).bind fun m =>
      (sentStream rest).map fun bytes => m.wire ++ bytes

/-- On the wire a line is the text of its cut length, followed by the cut line. -/
theorem clientMessage_spec (storage : Vector UInt8 (headerLength + maxBodyLength))
    (line : List UInt8) :
    ∃ m, clientMessage storage line = some m ∧
      m.wire = headerText (line.take maxBodyLength).length ++ line.take maxBodyLength := by
  have hbl := bodyLength_setBodyLength (init storage) line.length
  have hcut : line.take (min line.length maxBodyLength) = line.take maxBodyLength := by
    rw [Nat.min_comm, ← List.take_eq_take_min]
  have hlen : (line.take maxBodyLength).length = min line.length maxBodyLength := by
    rw [List.length_take, Nat.min_comm]
  have hle : min line.length maxBodyLength ≤ maxBodyLength := Nat.min_le_right _ _
  have hfits : headerLength + (line.take maxBodyLength).length ≤ headerLength + maxBodyLength := by
    omega
  obtain ⟨m₁, hm₁, hbl₁, hdata₁⟩ := writeData_spec ((init storage).setBodyLength line.length)
    headerLength (line.take maxBodyLength) hfits
  rw [hbl] at hbl₁
  obtain ⟨m₂, hm₂, hbl₂, hdata₂⟩ := encodeHeader_spec (m := m₁) (by omega)
  rw [hbl₁] at hbl₂ hdata₂
  refine ⟨m₂, ?_, ?_⟩
  · show ((writeData _ headerLength (line.take (Message.bodyLength _))).bind encodeHeader) = some m₂
    rw [hbl, hcut, hm₁, Option.bind_some, hm₂]
  · have htext := length_headerText hle
    have hhead : (List.take headerLength
        ((init storage).setBodyLength line.length).data.toList).length = headerLength := by
      rw [List.length_take, length_data]
      exact Nat.min_eq_left (Nat.le_add_right _ _)
    rw [wire, length, hbl₂, hdata₂, hdata₁, List.append_assoc, List.drop_left' hhead, hlen,
      ← List.append_assoc]
    exact List.take_left' (by rw [List.length_append, htext, hlen])

/-! ## Receiving -/

/-- One round of the receiver: the next header goes into `data()`, is decoded, and the
body it announces is taken off the stream.  `none` is a stream that ends too early or a
header that is not accepted. -/
def readFrame (m : Message) (stream : List UInt8) : Option (List UInt8 × Message × List UInt8) :=
  if stream.length < headerLength then none
  else (m.writeData 0 (stream.take headerLength)).bind fun m₁ =>
    let (ok, m₂) := m₁.decodeHeader
    let rest := stream.drop headerLength
    if ok ∧ m₂.bodyLength ≤ rest.length then
      some (rest.take m₂.bodyLength, m₂, rest.drop m₂.bodyLength)
    else none

/-- A round takes at least the header off the stream. -/
theorem length_of_readFrame {m m' : Message} {stream body rest : List UInt8}
    (h : m.readFrame stream = some (body, m', rest)) : rest.length < stream.length := by
  rw [readFrame] at h
  split_ifs at h with hshort
  rw [Option.bind_eq_some_iff] at h
  obtain ⟨m₁, -, h⟩ := h
  have hpos : 0 < headerLength := by decide
  dsimp only at h
  split_ifs at h
  simp only [Option.some.injEq, Prod.mk.injEq] at h
  obtain ⟨-, -, rfl⟩ := h
  rw [List.length_drop, List.length_drop]
  omega

/-- The receiver: rounds until the stream is used up. -/
def readStream (m : Message) (stream : List UInt8) : Option (List (List UInt8)) :=
  if stream = [] then some []
  else
    match h : m.readFrame stream with
    | none => none
    | some (body, m', rest) =>
        have : rest.length < stream.length := length_of_readFrame h
        (readStream m' rest).map fun bodies => body :: bodies
termination_by stream.length

/-- A frame in front of the stream is read and taken off. -/
theorem readFrame_frame (m : Message) {body : List UInt8} (rest : List UInt8)
    (h : body.length ≤ maxBodyLength) :
    ∃ m', m.readFrame (headerText body.length ++ body ++ rest) = some (body, m', rest) := by
  have hlen := length_headerText h
  have htake : (headerText body.length ++ body ++ rest).take headerLength
      = headerText body.length := by
    rw [List.append_assoc]
    exact List.take_left' hlen
  have hdrop : (headerText body.length ++ body ++ rest).drop headerLength = body ++ rest := by
    rw [List.append_assoc]
    exact List.drop_left' hlen
  obtain ⟨m₁, hm₁, -, hdata⟩ := m.writeData_zero_spec (headerText body.length) (by omega)
  have hhead : m₁.data.toList.take headerLength = headerText body.length := by
    rw [hdata]
    exact List.take_left' hlen
  refine ⟨{ m₁ with bodyLength := body.length }, ?_⟩
  rw [readFrame, if_neg (by rw [List.append_assoc, List.length_append]; omega), htake, hdrop, hm₁,
    Option.bind_some, decodeHeader_headerText h hhead]
  simp

/-- **A stream of frames decodes to what was sent.**  For every sequence of lines, and
whatever the arrays of the messages held before, the receiver reads the whole stream of
messages and returns the lines in order, each cut to the largest body. -/
theorem readStream_sent (m : Message)
    (sent : List (Vector UInt8 (headerLength + maxBodyLength) × List UInt8)) :
    ∃ stream, sentStream sent = some stream ∧
      m.readStream stream = some (sent.map fun s => s.2.take maxBodyLength) := by
  induction sent generalizing m with
  | nil => exact ⟨[], rfl, by rw [readStream, if_pos rfl]; rfl⟩
  | cons s sent ih =>
      obtain ⟨storage, line⟩ := s
      obtain ⟨m₁, hm₁, hwire⟩ := clientMessage_spec storage line
      have hcut : (line.take maxBodyLength).length ≤ maxBodyLength := List.length_take_le _ _
      obtain ⟨stream, hstream, -⟩ := ih m
      obtain ⟨m', hframe⟩ := m.readFrame_frame stream hcut
      obtain ⟨stream', hstream', hread⟩ := ih m'
      obtain rfl : stream = stream' := by
        rw [hstream] at hstream'
        exact Option.some.inj hstream'
      have hne : headerText (line.take maxBodyLength).length ++ line.take maxBodyLength ++ stream
          ≠ [] := by
        have hlen := length_headerText hcut
        have hpos : 0 < headerLength := by decide
        intro hnil
        rw [List.append_assoc] at hnil
        rw [(List.append_eq_nil_iff.mp hnil).1, List.length_nil] at hlen
        omega
      refine ⟨m₁.wire ++ stream, ?_, ?_⟩
      · rw [sentStream, hm₁, Option.bind_some, hstream, Option.map_some]
      · rw [hwire, readStream, if_neg hne]
        split
        · next hnone =>
            rw [hframe] at hnone
            exact absurd hnone (by simp)
        · next body m'' rest hsome =>
            rw [hframe] at hsome
            obtain ⟨rfl, rfl, rfl⟩ : _ ∧ _ ∧ _ := by simpa using hsome
            rw [hread, Option.map_some, List.map_cons]

end Message
