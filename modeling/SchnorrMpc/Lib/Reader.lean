import SchnorrMpc.Lib.Bytes

/-!
# Readers

A reader hands out its input piece by piece. It may report the end of the input together with the
last bytes or only at the read after them, and callers have to live with both. Here are the
interfaces, a reader over a byte string and one that puts a buffer in front of another reader, as
the standard library of Go has them, and what a loop gets that reads until a slice is full.
-/
namespace SchnorrMpc.Lib

variable {σ : Type} {need limit : Nat} {bytes data : Bytes} {byte : UInt8}

inductive IoErr where
  | eof
  | unexpectedEOF
  | noProgress
  deriving DecidableEq, Repr

/-- `io.Reader`: the bytes, at most as many as asked for, and the error of one read. -/
class Reader (σ : Type) where
  read : Nat → σ → Bytes × Option IoErr × σ

class ByteReader (σ : Type) extends Reader σ where
  readByte : σ → Except IoErr UInt8 × σ

/-- The loop `for n < len(buf) && err == nil { nn, err = r.Read(buf[n:]); n += nn }`: the bytes it
has stored and the error it ended with. Reads without an error that return nothing would keep it
running; the readers below have none, and the first argument bounds the rounds. -/
def readLoop {σ : Type} [Reader σ] : Nat → Nat → σ → Bytes × Option IoErr × σ
  | _, 0, r => ([], none, r)
  | 0, _ + 1, r => ([], some .noProgress, r)
  | rounds + 1, need + 1, r =>
    match Reader.read (need + 1) r with
    | (bytes, none, r) =>
      let (more, err, r) := readLoop rounds (need + 1 - bytes.length) r
      (bytes ++ more, err, r)
    | (bytes, some err, r) => (bytes, some err, r)

@[simp] theorem readLoop_zero [Reader σ] (rounds : Nat) (r : σ) :
    readLoop rounds 0 r = ([], none, r) := by
  cases rounds <;> rfl

theorem readLoop_of_read [Reader σ] {r next : σ} (rounds : Nat) (positive : 0 < need)
    (read : Reader.read need r = (bytes, none, next)) :
    readLoop (rounds + 1) need r =
      (bytes ++ (readLoop rounds (need - bytes.length) next).1,
        (readLoop rounds (need - bytes.length) next).2) := by
  obtain ⟨need, rfl⟩ := Nat.exists_eq_succ_of_ne_zero positive.ne'
  simp only [readLoop, Nat.succ_eq_add_one] at read ⊢
  rw [read]

theorem readLoop_of_error [Reader σ] {rounds : Nat} {r next : σ} {err : IoErr} (positive : 0 < need)
    (read : Reader.read need r = (bytes, some err, next)) :
    readLoop (rounds + 1) need r = (bytes, some err, next) := by
  obtain ⟨need, rfl⟩ := Nat.exists_eq_succ_of_ne_zero positive.ne'
  simp only [readLoop, Nat.succ_eq_add_one] at read ⊢
  rw [read]

/-! ### A reader over a byte string -/

/-- `bytes.Reader`, which reports the end after the last bytes. -/
structure BytesReader where
  unread : Bytes
  deriving DecidableEq, Repr

instance : ByteReader BytesReader where
  read limit r :=
    if r.unread = [] then ([], some .eof, r)
    else (r.unread.take limit, none, ⟨r.unread.drop limit⟩)
  readByte r :=
    match r.unread with
    | [] => (.error .eof, r)
    | byte :: rest => (.ok byte, ⟨rest⟩)

theorem BytesReader.readLoop_short {r : BytesReader} (short : r.unread.length < need)
    (rounds : Nat) : ∃ bytes err next, readLoop rounds need r = (bytes, some err, next) := by
  obtain ⟨need, rfl⟩ : ∃ n, need = n + 1 := ⟨need - 1, by omega⟩
  induction rounds generalizing r need with
  | zero => exact ⟨_, _, _, rfl⟩
  | succ rounds ih =>
    by_cases ended : r.unread = []
    · have read : Reader.read (need + 1) r = ([], some .eof, r) := if_pos ended
      exact ⟨_, _, _, readLoop_of_error (Nat.succ_pos _) read⟩
    · have positive : 0 < r.unread.length := List.length_pos_iff.mpr ended
      have read : Reader.read (need + 1) r =
          (r.unread.take (need + 1), none, ⟨r.unread.drop (need + 1)⟩) := if_neg ended
      rw [List.take_of_length_le short.le, List.drop_eq_nil_of_le short.le] at read
      obtain ⟨left, isLeft⟩ : ∃ n, need + 1 - r.unread.length = n + 1 :=
        ⟨need - r.unread.length, by omega⟩
      obtain ⟨bytes, err, next, more⟩ := ih (r := ⟨[]⟩) left (by simp)
      rw [readLoop_of_read rounds (Nat.succ_pos _) read, isLeft, more]
      exact ⟨_, _, _, rfl⟩

/-! ### A buffer in front of a reader -/

/-- `bufio.Reader`: what it has read ahead, the reader behind it, and that reader's last error if
it has not been returned yet. -/
structure Buffered (σ : Type) where
  buf : Bytes
  rd : σ
  err : Option IoErr

/-- `defaultBufSize`. -/
def bufSize : Nat := 4096

namespace Buffered

variable {σ : Type} [Reader σ]

/-- `bufio.NewReader`. -/
def new (rd : σ) : Buffered σ := ⟨[], rd, none⟩

/-- `fill`, with `maxConsecutiveEmptyReads` attempts. -/
def fill : Nat → Buffered σ → Buffered σ
  | 0, b => { b with err := some .noProgress }
  | attempts + 1, b =>
    let (bytes, err, rd) := Reader.read (bufSize - b.buf.length) b.rd
    if err.isSome ∨ bytes ≠ [] then ⟨b.buf ++ bytes, rd, err⟩ else fill attempts { b with rd := rd }

instance : ByteReader (Buffered σ) where
  read limit b :=
    if b.buf ≠ [] then (b.buf.take limit, none, { b with buf := b.buf.drop limit })
    else if b.err.isSome ∨ limit = 0 then ([], b.err, { b with err := none })
    else if bufSize ≤ limit then
      -- large reads go to the reader behind, and its error comes back with their bytes
      let (bytes, err, rd) := Reader.read limit b.rd
      (bytes, err, ⟨[], rd, none⟩)
    else
      let (bytes, err, rd) := Reader.read bufSize b.rd
      if bytes = [] then ([], err, ⟨[], rd, none⟩)
      else (bytes.take limit, none, ⟨bytes.drop limit, rd, err⟩)
  readByte b :=
    let b := if b.buf = [] ∧ b.err = none then b.fill 100 else b
    match b.buf with
    | byte :: rest => (.ok byte, { b with buf := rest })
    | [] => (.error (b.err.getD .noProgress), { b with err := none })

end Buffered

/-! ### What reading until a slice is full gets -/

/-- What a buffer of `bufSize` bytes holds after a slice of `size` bytes has been filled, when it
held `held` bytes before and the input goes on. -/
def refill (held size : Nat) : Nat :=
  if size ≤ held then held - size
  else if bufSize ≤ size - held then 0
  else bufSize - (size - held)

/-- Bytes that a reader will hand out: single ones and whole slices come as they stand in the input,
unless a slice that takes the rest of the input comes with the report of its end. `Holds r data
held` says that `data` is the rest of the input, of which `held` bytes are kept in a buffer (more
than there are, when the input ends in the buffer). -/
structure Source (σ : Type) [ByteReader σ] where
  Holds : σ → Bytes → Nat → Prop
  /-- The end is reported with a slice of a size that takes the rest. -/
  Sudden : Nat → Nat → Prop
  byte : ∀ {r : σ} {byte : UInt8} {data : Bytes} {held : Nat}, Holds r (byte :: data) held →
    ∃ next, ByteReader.readByte r = (.ok byte, next) ∧ Holds next data (refill held 1)
  full : ∀ {r : σ} {bytes data : Bytes} {held : Nat}, Holds r (bytes ++ data) held →
    (data = [] → ¬ Sudden held bytes.length) →
    ∃ next, readLoop bytes.length bytes.length r = (bytes, none, next) ∧
      Holds next data (refill held bytes.length)
  sudden : ∀ {r : σ} {bytes : Bytes} {held : Nat}, Holds r bytes held → Sudden held bytes.length →
    ∃ next, readLoop bytes.length bytes.length r = (bytes, some .eof, next)
  small : ∀ {held size : Nat}, size < bufSize → ¬ Sudden held size

/-- A byte string never ends suddenly. -/
def BytesReader.source : Source BytesReader where
  Holds r data _ := r.unread = data
  Sudden _ _ := False
  byte := by
    intro r byte data held holds
    refine ⟨⟨data⟩, ?_, rfl⟩
    simp only [ByteReader.readByte, holds]
  full := by
    intro r bytes data held holds _
    refine ⟨⟨data⟩, ?_, rfl⟩
    cases bytes with
    | nil =>
      obtain ⟨unread⟩ := r
      cases holds
      simp
    | cons byte bytes =>
      have read : Reader.read (byte :: bytes).length r = (byte :: bytes, none, ⟨data⟩) := by
        simp only [Reader.read, holds]
        simp
      rw [List.length_cons, readLoop_of_read _ (Nat.succ_pos _) read]
      simp
  sudden := fun _ impossible => impossible.elim
  small := fun _ impossible => impossible

/-- A reader that reports the end together with the last bytes. -/
structure Eager (σ : Type) [Reader σ] where
  Holds : σ → Bytes → Prop
  read : ∀ {r : σ} {data : Bytes}, Holds r data → ∀ limit, ∃ next,
    Reader.read limit r =
      (data.take limit, if data.length ≤ limit then some .eof else none, next) ∧
    Holds next (data.drop limit)

/-- Reads of the given sizes until the end is reported: the bytes they return, and whether it has
been. -/
def readChunks {σ : Type} [Reader σ] : List Nat → σ → Bytes × Bool
  | [], _ => ([], false)
  | size :: sizes, r =>
    match Reader.read size r with
    | (bytes, none, r) =>
      let (more, ended) := readChunks sizes r
      (bytes ++ more, ended)
    | (bytes, some _, _) => (bytes, true)

/-- Whatever the sizes are, they add up to a front of the input, and the end is reported with the
last byte. -/
theorem Eager.readChunks_eq [Reader σ] (eager : Eager σ) {r : σ} (holds : eager.Holds r data)
    (nonempty : data ≠ []) (sizes : List Nat) :
    readChunks sizes r = (data.take sizes.sum, decide (data.length ≤ sizes.sum)) := by
  induction sizes generalizing r data with
  | nil => simp [readChunks, nonempty]
  | cons size sizes ih =>
    obtain ⟨next, read, rest⟩ := eager.read holds size
    rw [readChunks, read, List.sum_cons]
    by_cases ends : data.length ≤ size
    · have covered : data.length ≤ size + sizes.sum := by omega
      rw [if_pos ends]
      simp [List.take_of_length_le ends, List.take_of_length_le covered, covered]
    · have left : data.drop size ≠ [] := by
        rw [Ne, List.drop_eq_nil_iff]
        exact ends
      have same : data.length - size ≤ sizes.sum ↔ data.length ≤ size + sizes.sum := by omega
      rw [if_neg ends]
      simp only [ih rest left, List.length_drop, same, List.take_add]

namespace Buffered

variable {σ : Type} [Reader σ]

/-- The buffer and the reader behind it hold the input, and the buffer is short of bytes only when
that reader has none left. -/
def Holds (behind : Eager σ) (b : Buffered σ) (data : Bytes) (held : Nat) : Prop :=
  ∃ unread, behind.Holds b.rd unread ∧ data = b.buf ++ unread ∧
    (b.err = none ∧ b.buf.length = held ∨ unread = [] ∧ b.buf.length ≤ held)

theorem holds_new (behind : Eager σ) {rd : σ} (holds : behind.Holds rd data) :
    Holds behind (new rd) data 0 :=
  ⟨data, holds, rfl, .inl ⟨rfl, rfl⟩⟩

variable {behind : Eager σ} {b : Buffered σ} {bytes data : Bytes} {held : Nat}

theorem holds_refilled {next : σ} {unread : Bytes} (size : Nat) (small : size < bufSize)
    (rest : behind.Holds next (unread.drop bufSize)) (enough : size ≤ unread.length) :
    Holds behind ⟨(unread.take bufSize).drop size, next,
        if unread.length ≤ bufSize then some .eof else none⟩ (unread.drop size)
      (bufSize - size) := by
  refine ⟨unread.drop bufSize, rest, ?_, ?_⟩
  · rw [← List.drop_append_of_le_length (by rw [List.length_take]; omega), List.take_append_drop]
  · by_cases ends : unread.length ≤ bufSize
    · right
      refine ⟨List.drop_eq_nil_of_le ends, ?_⟩
      simp only [List.length_drop, List.length_take]
      omega
    · left
      rw [if_neg ends]
      refine ⟨rfl, ?_⟩
      simp only [List.length_drop, List.length_take]
      omega

theorem read_small {rd next : σ} {err : Option IoErr} (positive : 0 < limit)
    (small : limit < bufSize) (nonempty : bytes ≠ [])
    (read : Reader.read bufSize rd = (bytes, err, next)) :
    Reader.read limit (⟨[], rd, none⟩ : Buffered σ) =
      (bytes.take limit, none, ⟨bytes.drop limit, next, err⟩) := by
  change (if _ then _ else _) = _
  rw [if_neg (by simp), if_neg (by simp [positive.ne']), if_neg (not_le.mpr small), read]
  exact if_neg nonempty

theorem read_large {rd next : σ} {err : Option IoErr} (large : bufSize ≤ limit)
    (read : Reader.read limit rd = (bytes, err, next)) :
    Reader.read limit (⟨[], rd, none⟩ : Buffered σ) = (bytes, err, ⟨[], next, none⟩) := by
  have positive : limit ≠ 0 := by
    have bound : 0 < bufSize := by decide
    omega
  change (if _ then _ else _) = _
  rw [if_neg (by simp), if_neg (by simp [positive]), if_pos large, read]

theorem read_buffered (nonempty : b.buf ≠ []) (limit : Nat) :
    Reader.read limit b = (b.buf.take limit, none, { b with buf := b.buf.drop limit }) :=
  if_pos nonempty

theorem readByte_empty {rd next : σ} {err : Option IoErr}
    (read : Reader.read bufSize rd = (byte :: bytes, err, next)) :
    ByteReader.readByte (⟨[], rd, none⟩ : Buffered σ) = (.ok byte, ⟨bytes, next, err⟩) := by
  have filled : fill 100 (⟨[], rd, none⟩ : Buffered σ) = ⟨byte :: bytes, next, err⟩ := by
    rw [show 100 = 99 + 1 from rfl, fill]
    simp only [List.length_nil, Nat.sub_zero, read, List.nil_append]
    exact if_pos (.inr (by simp))
  simp only [ByteReader.readByte, and_self, if_true, filled]

theorem readByte_holds (holds : Holds behind b (byte :: data) held) :
    ∃ next, ByteReader.readByte b = (.ok byte, next) ∧ Holds behind next data (refill held 1) := by
  obtain ⟨unread, rest, same, state⟩ := holds
  obtain ⟨buf, rd, err⟩ := b
  dsimp only at same state
  cases buf with
  | cons first buf =>
    rw [List.cons_append, List.cons.injEq] at same
    obtain ⟨rfl, rfl⟩ := same
    refine ⟨⟨buf, rd, err⟩, rfl, unread, rest, rfl, ?_⟩
    dsimp only
    rw [List.length_cons] at state
    rcases state with ⟨unreported, rfl⟩ | ⟨ends, most⟩
    · exact .inl ⟨unreported, rfl⟩
    · have taken : refill held 1 = held - 1 := if_pos (by omega)
      exact .inr ⟨ends, by omega⟩
  | nil =>
    -- an empty buffer is filled first; the input is not at its end, so nothing was reported yet
    rw [List.nil_append] at same
    subst same
    simp only [List.length_nil, reduceCtorEq, false_and, or_false] at state
    obtain ⟨rfl, rfl⟩ := state
    obtain ⟨next, read, after⟩ := behind.read rest bufSize
    have refilled := holds_refilled 1 (by decide) after (by simp)
    exact ⟨_, readByte_empty read, refilled⟩

/-- Filling a slice from an empty buffer: a large one comes from the reader behind, with its
error. -/
theorem readLoop_empty {rd : σ} (rounds : Nat) (nonempty : bytes ≠ [])
    (rest : behind.Holds rd (bytes ++ data)) :
    ∃ next, readLoop (rounds + 1) bytes.length (⟨[], rd, none⟩ : Buffered σ) =
        (bytes, if data = [] ∧ bufSize ≤ bytes.length then some .eof else none, next) ∧
      (¬ (data = [] ∧ bufSize ≤ bytes.length) →
        Holds behind next data (refill 0 bytes.length)) := by
  have positive : 0 < bytes.length := List.length_pos_iff.mpr nonempty
  by_cases large : bufSize ≤ bytes.length
  -- a read of a whole buffer or more goes to the reader behind
  · obtain ⟨next, read, after⟩ := behind.read rest bytes.length
    rw [List.take_left, List.length_append] at read
    rw [List.drop_left] at after
    have direct := read_large large read
    refine ⟨⟨[], next, none⟩, ?_, fun _ => ?_⟩
    · by_cases ends : data = []
      · subst ends
        rw [if_pos (by simp)] at direct
        rw [if_pos ⟨rfl, large⟩, readLoop_of_error positive direct]
      · have longer : 0 < data.length := List.length_pos_iff.mpr ends
        rw [if_neg (by omega)] at direct
        rw [if_neg (fun impossible => ends impossible.1), readLoop_of_read rounds positive direct]
        simp
    · refine ⟨data, after, rfl, .inl ⟨rfl, ?_⟩⟩
      simp [refill, large, positive.ne']
  -- any other one fills the buffer first
  · obtain ⟨next, read, after⟩ := behind.read rest bufSize
    have small : bytes.length < bufSize := not_le.mp large
    have refilled := holds_refilled bytes.length small after (by simp)
    have some_read : (bytes ++ data).take bufSize ≠ [] := by
      rw [Ne, List.take_eq_nil_iff]
      simp [nonempty, bufSize]
    have fetched := read_small positive small some_read read
    rw [List.take_take, min_eq_left small.le, List.take_left] at fetched
    rw [List.drop_left] at refilled
    have filled := readLoop_of_read rounds positive fetched
    have left : refill 0 bytes.length = bufSize - bytes.length := by
      simp [refill, large, positive.ne']
    rw [Nat.sub_self, readLoop_zero, List.append_nil] at filled
    rw [← left] at refilled
    rw [if_neg (fun impossible => large impossible.2)]
    exact ⟨_, filled, fun _ => refilled⟩

theorem readLoop_inside {rd : σ} {err : Option IoErr} (tail : Bytes) :
    readLoop bytes.length bytes.length (⟨bytes ++ tail, rd, err⟩ : Buffered σ) =
      (bytes, none, ⟨tail, rd, err⟩) := by
  cases bytes with
  | nil => simp
  | cons byte bytes =>
    have buffered : Reader.read (byte :: bytes).length
        (⟨byte :: bytes ++ tail, rd, err⟩ : Buffered σ) =
        (byte :: bytes, none, ⟨tail, rd, err⟩) := by
      rw [read_buffered (by simp), List.take_left, List.drop_left]
    rw [List.length_cons, readLoop_of_read _ (Nat.succ_pos _) buffered]
    simp

theorem readLoop_across {rd : σ} {buf tail : Bytes} (more : tail ≠ [])
    (rest : behind.Holds rd (tail ++ data)) :
    ∃ next, readLoop (buf ++ tail).length (buf ++ tail).length (⟨buf, rd, none⟩ : Buffered σ) =
        (buf ++ tail, if data = [] ∧ bufSize ≤ tail.length then some .eof else none, next) ∧
      (¬ (data = [] ∧ bufSize ≤ tail.length) → Holds behind next data (refill 0 tail.length)) := by
  have positive : 0 < tail.length := List.length_pos_iff.mpr more
  cases buf with
  | nil =>
    obtain ⟨rounds, count⟩ := Nat.exists_eq_succ_of_ne_zero positive.ne'
    have filled := readLoop_empty rounds more rest
    rwa [← Nat.succ_eq_add_one, ← count] at filled
  | cons byte buf =>
    obtain ⟨rounds, count⟩ : ∃ rounds, buf.length + tail.length = rounds + 1 :=
      ⟨buf.length + tail.length - 1, by omega⟩
    obtain ⟨next, filled, holds⟩ := readLoop_empty rounds more rest
    refine ⟨next, ?_, holds⟩
    have buffered : Reader.read ((byte :: buf) ++ tail).length
        (⟨byte :: buf, rd, none⟩ : Buffered σ) = (byte :: buf, none, ⟨[], rd, none⟩) := by
      rw [read_buffered (by simp), List.take_of_length_le (by simp),
        List.drop_eq_nil_of_le (by simp)]
    have emptied := readLoop_of_read (buf.length + tail.length) (by simp) buffered
    have left : ((byte :: buf) ++ tail).length - (byte :: buf).length = tail.length := by simp
    rw [left, count, filled] at emptied
    rw [← emptied, List.length_append, List.length_cons, ← count, Nat.add_right_comm]

theorem readLoop_holds (holds : Holds behind b (bytes ++ data) held) :
    ∃ next, readLoop bytes.length bytes.length b =
        (bytes, if data = [] ∧ bufSize ≤ bytes.length - held then some .eof else none, next) ∧
      (¬ (data = [] ∧ bufSize ≤ bytes.length - held) →
        Holds behind next data (refill held bytes.length)) := by
  obtain ⟨unread, rest, same, state⟩ := holds
  obtain ⟨buf, rd, err⟩ := b
  dsimp only at rest same state
  have bound : 0 < bufSize := by decide
  by_cases inside : bytes.length ≤ buf.length
  · obtain ⟨tail, rfl⟩ : ∃ tail, buf = bytes ++ tail :=
      (List.prefix_of_prefix_length_le ⟨data, same⟩ ⟨unread, rfl⟩ inside).imp fun _ => Eq.symm
    rw [List.append_assoc, List.append_cancel_left_eq] at same
    have enough : bytes.length ≤ held := by
      rw [List.length_append] at state
      omega
    have left : refill held bytes.length = held - bytes.length := if_pos enough
    rw [if_neg (by omega)]
    refine ⟨_, readLoop_inside tail, fun _ => ⟨unread, rest, same, ?_⟩⟩
    rw [left]
    dsimp only
    rw [List.length_append] at state
    exact state.imp (fun now => ⟨now.1, by omega⟩) (fun now => ⟨now.1, by omega⟩)
  · obtain ⟨tail, rfl⟩ : ∃ tail, bytes = buf ++ tail :=
      (List.prefix_of_prefix_length_le ⟨unread, rfl⟩ ⟨data, same⟩ (by omega)).imp fun _ => Eq.symm
    rw [List.append_assoc, List.append_cancel_left_eq] at same
    have more : tail ≠ [] := by
      rintro rfl
      simp at inside
    -- the input goes on behind the buffer, so nothing has been reported
    obtain ⟨rfl, rfl⟩ : err = none ∧ buf.length = held := by
      refine state.resolve_right fun ended => ?_
      rw [ended.1] at same
      exact more (List.append_eq_nil_iff.mp same).1
    have size : (buf ++ tail).length - buf.length = tail.length := by simp
    have after : refill buf.length (buf ++ tail).length = refill 0 tail.length := by
      have positive : 0 < tail.length := List.length_pos_iff.mpr more
      simp [refill, positive.ne']
    rw [size, after]
    exact readLoop_across more (same ▸ rest)

/-- A buffer in front of an eager reader passes the end on with a large slice that takes the
rest. -/
def source (behind : Eager σ) : Source (Buffered σ) where
  Holds := Holds behind
  Sudden held size := bufSize ≤ size - held
  byte := readByte_holds
  full := by
    intro r bytes data held holds calm
    obtain ⟨next, filled, after⟩ := readLoop_holds holds
    have quiet : ¬ (data = [] ∧ bufSize ≤ bytes.length - held) := fun both => calm both.1 both.2
    rw [if_neg quiet] at filled
    exact ⟨next, filled, after quiet⟩
  sudden := by
    intro r bytes held holds ends
    have whole : Holds behind r (bytes ++ []) held := by rwa [List.append_nil]
    obtain ⟨next, filled, -⟩ := readLoop_holds whole
    rw [if_pos ⟨rfl, ends⟩] at filled
    exact ⟨next, filled⟩
  small := fun small => not_le.mpr ((Nat.sub_le _ _).trans_lt small)

end Buffered
end SchnorrMpc.Lib
