import SchnorrMpc.Rlp.Canonical

/-!
# The wire format of messages

A message is read back from the bytes of its encoding, and nothing but the encoding of a message is
decoded to it. Read straight from `EncodeToReader` it may be refused: the reader reports its end
together with the last bytes, the buffer in front of it passes that on for slices it does not
buffer, and `readFull` takes it for a missing byte even though the slice is full.
-/
namespace SchnorrMpc.Rlp

open Lib Lib.Rlp

/-- What the buffer holds when the content of `last` is read, after `items` before it in
`BytesData`. -/
def heldBefore (msg : MpcMessage) (items : List Bytes) (last : Bytes) : Nat :=
  (readsBefore msg ++ items.flatMap stringReads ++ headReads last.length).foldl refill 0

/-- The last element of `BytesData` is longer than what is held by a whole buffer or more. -/
def SuddenEnd (msg : MpcMessage) : Prop :=
  ∃ last, msg.bytesData.getLast? = some last ∧
    heldBefore msg msg.bytesData.dropLast last + bufSize ≤ last.length

/-- The encoding comes out of the reader in chunks of any sizes as it is written to a slice, and is
decoded to the message. -/
def RoundTrips (msg : MpcMessage) : Prop :=
  ∃ bytes r, encodeToBytes msg = .ok bytes ∧ encodeToReader msg = .ok (bytes.length, r) ∧
    (∀ sizes : List Nat, (∀ size ∈ sizes, 0 < size) →
      readChunks sizes r = (bytes.take sizes.sum, decide (bytes.length ≤ sizes.sum))) ∧
    decode r = .ok msg

theorem lastItem_iff_suddenEnd (msg : MpcMessage) :
    LastItem (Buffered.source EncReader.eager) ((readsBefore msg).foldl refill 0) msg.bytesData [] ↔
      SuddenEnd msg := by
  rcases List.eq_nil_or_concat msg.bytesData with none_left | ⟨items, last, isData⟩
  · simp [SuddenEnd, none_left, LastItem]
  · have plain : bufSize ≤ last.length → ¬ IsSingle last := by
      rintro large ⟨byte, rfl, -⟩
      exact absurd large (by simp [bufSize])
    have positive : 0 < bufSize := by decide
    unfold SuddenEnd heldBefore
    rw [isData, List.concat_eq_append, lastItem_append, Stream.LastRead]
    simp only [List.getLast?_append, List.getLast?_singleton, Option.some_or, Option.some.injEq,
      List.dropLast_concat, exists_eq_left', List.foldl_append]
    constructor
    · rintro ⟨-, -, sudden⟩
      change bufSize ≤ _ - _ at sudden
      omega
    · intro large
      refine ⟨trivial, plain (by omega), ?_⟩
      change bufSize ≤ _ - _
      omega

section Message

variable {msg : MpcMessage}

theorem decode_reader_eq (fits : Fits msg) (nonneg : ∀ item ∈ msg.data, 0 ≤ item) {r : EncReader}
    (holds : EncReader.eager.Holds r (wire msg)) :
    (¬ SuddenEnd msg → decode r = .ok msg) ∧
      (SuddenEnd msg → decode r = .err (.io .unexpectedEOF)) := by
  have place : At (Buffered.source EncReader.eager) (Stream.ofReader r) (wire msg) 0 [] :=
    ⟨Buffered.holds_new EncReader.eager holds, fun limited => (Bool.false_ne_true limited).elim,
      rfl⟩
  constructor
  · intro calm
    rw [← lastItem_iff_suddenEnd] at calm
    rw [← List.append_nil (wire msg)] at place
    obtain ⟨t, _, decoded, -⟩ := decodeMpcMessage_at fits nonneg rfl place calm
    rw [decode, Stream.decode, StreamM.mapErr_ok _ decoded]
  · intro last
    rw [← lastItem_iff_suddenEnd] at last
    obtain ⟨t, fails⟩ := decodeMpcMessage_lastItem fits nonneg rfl place last
    rw [decode, Stream.decode, StreamM.mapErr_err fails]
    rfl

theorem decodeBytes_encodeToBytes (fits : Fits msg) (nonneg : ∀ item ∈ msg.data, 0 ≤ item) :
    (encodeToBytes msg >>= decodeBytes) = .ok msg := by
  have place : Before (Stream.ofBytes (wire msg)) (wire msg ++ []) [] :=
    ⟨(List.append_nil _).symm, fun _ => by simp [Stream.ofBytes], rfl⟩
  have calm :
      ¬ LastItem BytesReader.source ((readsBefore msg).foldl refill 0) msg.bytesData [] := by
    rcases List.eq_nil_or_concat msg.bytesData with none_left | ⟨items, last, isData⟩
    · rw [none_left]
      exact fun impossible => impossible
    · rw [isData, List.concat_eq_append, lastItem_append]
      exact fun sudden => sudden.2.2
  obtain ⟨t, _, decoded, after⟩ := decodeMpcMessage_at fits nonneg rfl place calm
  have ended : t.r.unread = [] := after.holds
  rw [encodeToBytes_eq fits nonneg, Outcome.ok_bind]
  unfold decodeBytes Stream.decode
  rw [StreamM.mapErr_ok _ decoded]
  simp [ended]

end Message

theorem wire_ne_nil (msg : MpcMessage) : wire msg ≠ [] := by
  unfold wire Lib.Rlp.list header
  split <;> simp

/-- A message goes through its encoding and back exactly when its last string does not end
suddenly, and what `DecodeBytes` accepts is encoded to the same bytes again. -/
theorem wireFormat_roundTrips_iff (msg : MpcMessage) (fits : Fits msg)
    (nonneg : ∀ item ∈ msg.data, 0 ≤ item) :
    (RoundTrips msg ↔ ¬ SuddenEnd msg) ∧
      ∀ (b : Bytes) (decoded : MpcMessage), b.length < 2 ^ 63 → decodeBytes b = .ok decoded →
        encodeToBytes decoded = .ok b := by
  obtain ⟨r, isReader, holds⟩ := encodeToReader_eq fits nonneg
  obtain ⟨whole, cut⟩ := decode_reader_eq fits nonneg holds
  refine ⟨⟨?_, fun calm => ?_⟩, ?_⟩
  · rintro ⟨bytes, other, -, sameReader, -, decoded⟩ sudden
    rw [isReader, Outcome.ok.injEq, Prod.mk.injEq] at sameReader
    obtain ⟨-, rfl⟩ := sameReader
    rw [cut sudden] at decoded
    cases decoded
  · exact ⟨wire msg, r, encodeToBytes_eq fits nonneg, isReader,
      fun sizes _ => EncReader.eager.readChunks_eq holds (wire_ne_nil msg) sizes, whole calm⟩
  · intro b decoded range accepted
    obtain ⟨rfl, contextID, stepID, positive⟩ := decodeBytes_wire accepted
    exact encodeToBytes_eq ⟨contextID, stepID, range⟩ positive

/-- A message with elements of all sorts of encodings. -/
def plainMessage : MpcMessage := ⟨300, 2, [1, 0], [0, 5, 128, 70000], [[], [127], [128], [1, 2, 3]]⟩

theorem wireFormat_roundTrips_iff_plain :
    (¬ SuddenEnd plainMessage ∧ RoundTrips plainMessage) ∧
      encodeToBytes ⟨0, 0, [], [], []⟩ = .ok [0xC5, 0x80, 0x80, 0x80, 0xC0, 0xC0] := by
  have fits : Fits plainMessage := by
    refine ⟨by decide, by decide, ?_⟩
    decide +kernel
  have calm : ¬ SuddenEnd plainMessage := by
    rintro ⟨last, isLast, large⟩
    cases isLast
    exact absurd large (by decide +kernel)
  obtain ⟨trips, again⟩ := wireFormat_roundTrips_iff plainMessage fits (by decide)
  exact ⟨⟨calm, trips.mpr calm⟩, again _ _ (by decide) (by decide +kernel)⟩

section Long

variable {content : Bytes}

def oneString (content : Bytes) : MpcMessage := ⟨7, 2, [], [], [content]⟩

theorem length_string_long (length : content.length = 8192) : (string content).length = 8195 := by
  have plain : ¬ IsSingle content := by
    rintro ⟨byte, rfl, -⟩
    cases length
  have head : (header 0x80 0xB7 8192).length = 3 := by decide
  rw [string, if_neg plain, List.length_append, length, head]

theorem length_fields_long (length : content.length = 8192) :
    (fields (oneString content)).length = 8202 := by
  have head : (header 0xC0 0xF7 8195).length = 3 := by decide
  have before : (integer 7 ++ integer 2 ++ string [] ++ Lib.Rlp.list []).length = 4 := by decide
  have string_length := length_string_long length
  unfold fields oneString
  simp only [List.flatMap_nil, List.flatMap_cons, List.append_nil]
  rw [List.length_append, before, Lib.Rlp.list, List.length_append, string_length, head]

theorem oneString_sudden (length : content.length = 8192) :
    Fits (oneString content) ∧ SuddenEnd (oneString content) := by
  have whole := length_fields_long length
  have head : (header 0xC0 0xF7 8202).length = 3 := by decide
  constructor
  · refine ⟨by simp [oneString], by simp [oneString], ?_⟩
    rw [wire, Lib.Rlp.list, List.length_append, whole, head]
    decide
  · refine ⟨content, rfl, ?_⟩
    have string_length := length_string_long length
    have reads : readsBefore (oneString content) ++ [] ++ headReads content.length =
        [1, 2, 1, 1, 1, 0, 1, 1, 2, 1, 2] := by
      rw [readsBefore, whole, length]
      simp only [oneString, List.flatMap_cons, List.flatMap_nil, List.append_nil, string_length]
      decide
    change (readsBefore (oneString content) ++ [] ++ headReads content.length).foldl refill 0 +
      bufSize ≤ content.length
    rw [reads, length]
    decide

end Long

/-- A message with a string of 8192 bytes is decoded from its bytes, but not from its reader. -/
theorem long_message_refused :
    (encodeToBytes (oneString (List.replicate 8192 0)) >>= decodeBytes) =
        .ok (oneString (List.replicate 8192 0)) ∧
      (encodeToReader (oneString (List.replicate 8192 0)) >>= fun (_, r) => decode r) =
        .err (.io .unexpectedEOF) := by
  obtain ⟨fits, sudden⟩ := oneString_sudden (List.length_replicate (n := 8192) (a := (0 : UInt8)))
  have nonneg : ∀ item ∈ (oneString (List.replicate 8192 0)).data, 0 ≤ item := by
    intro item member
    cases member
  obtain ⟨r, isReader, holds⟩ := encodeToReader_eq fits nonneg
  refine ⟨decodeBytes_encodeToBytes fits nonneg, ?_⟩
  rw [isReader]
  exact (decode_reader_eq fits nonneg holds).2 sudden

end SchnorrMpc.Rlp
